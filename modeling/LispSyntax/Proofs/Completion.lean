/-
Every fragment can be completed.

What is missing from a fragment is little: a reserved character behind a backslash,
a delimiter, a closing parenthesis for every open list.  Behind a gap a newline
comes first, since the gap may end in a comment.  Nothing that has been read is
taken back, so a text is never hopeless before the place where the reader stalls.
-/
import LispSyntax.Proofs.Fragment

namespace LispSyntax
namespace Grammar

open Text

/-! ## Expressions with one more behind them -/

namespace Derivations

/-- The expressions with another one, and no gap, behind them. -/
def snoc : Derivations → Derivation → Derivations
  | .nil, d => .cons d [] .nil
  | .cons head gap tail, d => .cons head gap (tail.snoc d)

theorem text_snoc : (ds : Derivations) → (d : Derivation) → (ds.snoc d).text = ds.text ++ d.text
  | .nil, d => by simp [snoc, text, Gap.text]
  | .cons head gap tail, d => by
    rw [snoc, text, text, text_snoc tail d]
    simp only [List.append_assoc]

theorem depth_snoc : (ds : Derivations) → (d : Derivation) →
    (ds.snoc d).depth = max ds.depth d.depth
  | .nil, d => by
    rw [snoc, depth, depth]
    exact Nat.max_comm ..
  | .cons head gap tail, d => by
    rw [snoc, depth, depth, depth_snoc tail d]
    omega

theorem Legal.snoc : {ds : Derivations} → {d : Derivation} → {b : List Char} →
    ds.Legal (d.text ++ b) → d.Legal b → (ds.snoc d).Legal b
  | .nil, _, _, _, hd => ⟨hd, trivial, trivial⟩
  | .cons head gap tail, d, b, h, hd => by
    have htext : (tail.snoc d).text ++ b = tail.text ++ (d.text ++ b) := by
      rw [text_snoc, List.append_assoc]
    refine ⟨?_, ?_, Legal.snoc h.2.2 hd⟩
    · rw [htext]
      exact h.1
    · rw [htext]
      exact h.2.1

end Derivations

/-! ## Gaps with a newline behind them -/

theorem EndsAtom.append_newline {b cs : List Char} (h : EndsAtom (cs ++ b)) (b' : List Char) :
    EndsAtom (cs ++ '\n' :: b') := by
  cases cs with
  | nil => exact endsAtom_newline b'
  | cons c cs => exact h.congr rfl

/-- A newline ends whatever is open behind a gap and expressions, be it an atom or a
comment, and the trees stay as they are. -/
theorem newline_completes : (ds : Derivations) → (g : Gap) → {b : List Char} →
    g.Legal (ds.text ++ b) → ds.Legal b →
    ∃ (g' : Gap) (ds' : Derivations), g'.text ++ ds'.text = g.text ++ (ds.text ++ ['\n']) ∧
      (∀ b', g'.Legal (ds'.text ++ b')) ∧ (∀ b', ds'.Legal b') ∧ ds'.depth = ds.depth ∧
      ∀ p : Position, ds'.nodes Position.after (p.after g'.text) =
        ds.nodes Position.after (p.after g.text)
  | .nil, g, b, hg, _ => by
    obtain ⟨g', htext, hg'⟩ := hg.newline
    exact ⟨g', .nil, by simp [Derivations.text, htext], hg', fun _ => trivial, rfl, fun _ => rfl⟩
  | .cons head gap tail, g, b, hg, hds => by
    obtain ⟨gap', tail', htext, hgap', htail', hdepth, hnodes⟩ :=
      newline_completes tail gap hds.2.1 hds.2.2
    have hbehind : ∀ b', gap'.text ++ (tail'.text ++ b') =
        (gap.text ++ tail.text) ++ '\n' :: b' := by
      intro b'
      rw [← List.append_assoc, htext]
      simp
    refine ⟨g, .cons head gap' tail', ?_, ?_, ?_, ?_, ?_⟩
    · rw [Derivations.text, Derivations.text, htext]
      simp only [List.append_assoc]
    · intro b'
      refine hg.congr fun hnil => ?_
      exact absurd (List.append_eq_nil_iff.1 hnil).1 (Derivations.text_ne_nil_of_cons hds)
    · intro b'
      refine ⟨?_, hgap' b', htail' b'⟩
      rw [hbehind]
      refine hds.1.congr fun hends => ?_
      rw [← List.append_assoc] at hends
      exact hends.append_newline b'
    · rw [Derivations.depth, Derivations.depth, hdepth]
    · intro p
      rw [Derivations.nodes, Derivations.nodes, Position.after_append, Position.after_append,
        hnodes]

/-! ## Fragments -/

/-- An atom of one letter. -/
def letter : Derivation := .atom [.plain 'a']

theorem letter_legal {b : List Char} (h : EndsAtom b) : letter.Legal b := by
  have hplain : isReserved 'a' = false := by decide
  refine ⟨by simp, ?_, h⟩
  intro u hu
  obtain rfl := List.mem_singleton.1 hu
  exact hplain

/-- A list closes behind a newline. -/
theorem list_completes {gap : Gap} {items : Derivations} {b : List Char}
    (hgap : gap.Legal (items.text ++ b)) (hitems : items.Legal b) :
    ∃ d : Derivation, d.text = '(' :: (gap.text ++ (items.text ++ ['\n', ')'])) ∧
      (∀ b', d.Legal b') ∧ d.depth = items.depth + 1 ∧ d.form = .list := by
  obtain ⟨gap', items', htext, hgap', hitems', hdepth, _⟩ :=
    newline_completes items gap hgap hitems
  refine ⟨.list gap' items', ?_, fun b' => ⟨hgap' _, hitems' _⟩, ?_, rfl⟩
  · rw [Derivation.text, ← List.append_assoc, htext]
    simp
  · rw [Derivation.depth, hdepth]

namespace Fragment

/-- The derivation begins with the text of the fragment, and goes on with `t` in front of
whatever ends an atom. -/
structure Begins (f : Fragment) (d : Derivation) (t : List Char) : Prop where
  text : d.text = f.text ++ t
  legal : ∀ b, EndsAtom b → d.Legal b
  form : f.form? = some d.form

/-- A backslash may escape a parenthesis. -/
theorem atom_begins {us : List AtomUnit} (hus : ∀ u ∈ us, u.Legal) :
    Begins (.atom us) (.atom (us ++ [.escaped ')'])) [')'] where
  text := by simp [Derivation.text, text, AtomUnit.text]
  legal b hb := by
    have hescaped : isReserved ')' = true := by decide
    have hlegal : ∀ u ∈ us ++ [AtomUnit.escaped ')'], u.Legal :=
      List.forall_mem_append.2 ⟨hus, List.forall_mem_singleton.2 hescaped⟩
    exact ⟨by simp, hlegal, hb⟩
  form := rfl

theorem string_begins {us : List StringUnit} (hus : ∀ u ∈ us, u.Legal) :
    Begins (.string us false) (.string us) ['"'] where
  text := by simp [Derivation.text, text]
  legal _ _ := hus
  form := rfl

/-- A backslash may escape a quotation mark. -/
theorem string_slash_begins {us : List StringUnit} (hus : ∀ u ∈ us, u.Legal) :
    Begins (.string us true) (.string (us ++ [.escape '"' '"'])) ['"', '"'] where
  text := by simp [Derivation.text, text, StringUnit.text]
  legal b _ := by
    have hescape : (StringUnit.escape '"' '"').Legal := rfl
    exact List.forall_mem_append.2 ⟨hus, List.forall_mem_singleton.2 hescape⟩
  form := rfl

section Inner

variable {gap : Gap} {items : Derivations} {inner : Fragment} {k : QuoteKind} {levels : Nat}
  {b t : List Char} {d : Derivation}

/-- A list goes on as the expression in it does, and closes. -/
theorem list_begins (h : (list gap items inner).Stalls levels b) (hd : Begins inner d t) :
    Begins (.list gap items inner) (.list gap (items.snoc d)) (t ++ [')']) where
  text := by
    rw [Derivation.text, Derivations.text_snoc, hd.text, text]
    simp
  legal b' _ := by
    obtain ⟨_, hgap, hitems, _, _⟩ := h
    have hhead : (inner.text ++ b).head? = (d.text ++ ')' :: b').head? := by
      rw [hd.text, List.append_assoc]
      exact head?_append_congr (text_ne_nil hd.form)
    have hitems' := Derivations.Legal.snoc (hitems.congr_head? hhead)
      (hd.legal _ (endsAtom_close b'))
    refine ⟨?_, hitems'⟩
    rw [Derivations.text_snoc, List.append_assoc]
    exact hgap.congr_head? (head?_append_of_head?_eq hhead items.text)
  form := rfl

/-- Behind a marker a body may start on the next line. -/
theorem exists_begins_quotation (h : (quotation k gap inner).Stalls levels b)
    (hform : inner.form? = none) :
    ∃ gap', Begins (.quotation k gap inner) (.quotation k gap' letter) ['\n', 'a'] := by
  obtain ⟨_, hat, hgap, _⟩ := h
  rw [text_eq_nil hform] at hat hgap
  obtain ⟨gap', htext, hgap'⟩ := hgap.newline
  refine ⟨gap', ?_, fun b' hb' => ⟨fun hk => ?_, hgap' _, letter_legal hb'⟩, rfl⟩
  · rw [Derivation.text, htext, text, text_eq_nil hform]
    simp [letter, Derivation.text, AtomUnit.text]
  · have hat' := hat hk
    rw [htext]
    cases hg : gap.text with
    | nil => simp
    | cons a as =>
      rw [hg] at hat'
      exact hat'

/-- A quotation goes on as its body does. -/
theorem quotation_begins (h : (quotation k gap inner).Stalls levels b) (hd : Begins inner d t) :
    Begins (.quotation k gap inner) (.quotation k gap d) t where
  text := by
    rw [Derivation.text, hd.text, text]
    simp
  legal b' hb' := by
    obtain ⟨_, hat, hgap, _⟩ := h
    have hhead : (inner.text ++ b).head? = (d.text ++ b').head? := by
      rw [hd.text, List.append_assoc]
      exact head?_append_congr (text_ne_nil hd.form)
    refine ⟨fun hk => ?_, hgap.congr_head? hhead, hd.legal b' hb'⟩
    rw [← head?_append_of_head?_eq hhead gap.text]
    exact hat hk
  form := rfl

end Inner

/-- A fragment of which something has been read begins an expression. -/
theorem exists_begins (f : Fragment) {levels : Nat} {b : List Char} {form : Form}
    (h : f.Stalls levels b) (hf : f.form? = some form) :
    ∃ d t, f.Begins d t ∧ d.depth ≤ levels := by
  induction f generalizing levels form with
  | missing => simp [form?] at hf
  | cut => simp [form?] at hf
  | atom us => exact ⟨_, _, atom_begins h.1, Nat.zero_le levels⟩
  | string us slash =>
    cases slash with
    | false => exact ⟨_, _, string_begins h.1, Nat.zero_le levels⟩
    | true => exact ⟨_, _, string_slash_begins h.1, Nat.zero_le levels⟩
  | unclosed gap items =>
    obtain ⟨hdepth, hgap, hitems, _⟩ := h
    obtain ⟨d, htext, hd, hdepth', hlist⟩ := list_completes hgap hitems
    refine ⟨d, ['\n', ')'], ⟨?_, fun b' _ => hd b', congrArg some hlist.symm⟩, ?_⟩
    · simp [htext, text]
    · omega
  | list gap items inner ih =>
    obtain ⟨hdepth, hgap, hitems, _, hinner⟩ := id h
    cases hform : inner.form? with
    | none =>
      rw [text_eq_nil hform] at hgap hitems
      obtain ⟨d, htext, hd, hdepth', hlist⟩ := list_completes hgap hitems
      refine ⟨d, ['\n', ')'], ⟨?_, fun b' _ => hd b', congrArg some hlist.symm⟩, ?_⟩
      · simp [htext, text, text_eq_nil hform]
      · omega
    | some inside =>
      obtain ⟨d, t, hd, hdepth'⟩ := ih hinner hform
      refine ⟨_, _, list_begins h hd, ?_⟩
      rw [Derivation.depth, Derivations.depth_snoc]
      omega
  | quotation k gap inner ih =>
    obtain ⟨hlevels, _, _, hinner⟩ := id h
    cases hform : inner.form? with
    | none =>
      obtain ⟨gap', hd⟩ := exists_begins_quotation h hform
      exact ⟨_, _, hd, hlevels⟩
    | some inside =>
      obtain ⟨d, t, hd, hdepth'⟩ := ih hinner hform
      refine ⟨_, _, quotation_begins h hd, ?_⟩
      rw [Derivation.depth]
      omega

end Fragment
end Grammar
end LispSyntax
