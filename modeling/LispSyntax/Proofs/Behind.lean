/-
What a derivation asks of the text behind it.

A derivation that is legal in front of one text is legal in front of another,
provided that an atom may still end there and a comment that the text closes is
not opened up.  Both depend on the first character behind it alone, and a newline
suits every derivation.
-/
import LispSyntax.Proofs.Derivation

namespace LispSyntax
namespace Grammar

open Text

theorem head?_append_congr {a b b' : List Char} (h : a ≠ []) :
    (a ++ b).head? = (a ++ b').head? := by
  cases a with
  | nil => exact absurd rfl h
  | cons c a => rfl

/-- No gap goes on in front of the text. -/
def EndsGap (behind : List Char) : Prop :=
  ∀ c ∈ behind.head?, isBlank c = false ∧ c ≠ ';'

theorem endsGap_nil : EndsGap [] := by
  intro c hc
  simp at hc

theorem endsAtom_nil : EndsAtom [] := by
  intro c hc
  simp at hc

theorem EndsGap.congr {b b' : List Char} (h : EndsGap b) (hb : b.head? = b'.head?) :
    EndsGap b' := by
  unfold EndsGap at *
  rwa [← hb]

theorem EndsAtom.congr {b b' : List Char} (h : EndsAtom b) (hb : b.head? = b'.head?) :
    EndsAtom b' := by
  unfold EndsAtom at *
  rwa [← hb]

theorem isReserved_of_isBlank {c : Char} (h : isBlank c = true) : isReserved c = true := by
  simp [isReserved, h]

theorem isBlank_eq_false_of_isReserved {c : Char} (h : isReserved c = false) :
    isBlank c = false := by
  cases hc : isBlank c with
  | false => rfl
  | true => exact absurd (isReserved_of_isBlank hc) (by simp [h])

theorem endsAtom_cons_of_isBlank {c : Char} (h : isBlank c = true) (cs : List Char) :
    EndsAtom (c :: cs) := by
  intro d hd
  obtain rfl : c = d := by simpa using hd
  refine ⟨isReserved_of_isBlank h, ?_⟩
  rintro rfl
  exact absurd h (by decide)

theorem endsAtom_newline (cs : List Char) : EndsAtom ('\n' :: cs) :=
  endsAtom_cons_of_isBlank (by decide) cs

theorem endsAtom_close (cs : List Char) : EndsAtom (')' :: cs) := by
  intro d hd
  obtain rfl : ')' = d := by simpa using hd
  decide

theorem endsGap_of_closes {b : List Char} (h : ∀ c ∈ b.head?, c = ')') : EndsGap b := by
  intro c hc
  obtain rfl := h c hc
  decide

theorem endsGap_close (cs : List Char) : EndsGap (')' :: cs) :=
  endsGap_of_closes (by simp)

/-! ## Gaps -/

namespace Line

theorem Legal.congr {b b' : List Char} {l : Line} (h : l.Legal b) (hb : b = [] → b' = []) :
    l.Legal b' :=
  ⟨h.1, fun hclosed => hb (h.2 hclosed)⟩

end Line

namespace Gap

@[simp] theorem text_append (g h : Gap) : text (g ++ h) = text g ++ text h := by
  induction g with
  | nil => rfl
  | cons f g ih => simp [text, ih]

theorem Legal.append {b : List Char} {g h : Gap} (hg : Legal (text h ++ b) g) (hh : Legal b h) :
    Legal b (g ++ h) := by
  induction g with
  | nil => exact hh
  | cons f g ih =>
    refine ⟨?_, ih hg.2⟩
    show f.Legal (text (g ++ h) ++ b)
    rw [text_append, List.append_assoc]
    exact hg.1

theorem Legal.congr {b b' : List Char} {g : Gap} (h : Legal b g) (hb : b = [] → b' = []) :
    Legal b' g := by
  induction g with
  | nil => trivial
  | cons f g ih =>
    refine ⟨?_, ih h.2⟩
    cases f with
    | blank c => exact h.1
    | comment l =>
      refine Line.Legal.congr h.1 fun hnil => ?_
      have hparts := List.append_eq_nil_iff.1 hnil
      rw [hparts.1, hb hparts.2]
      rfl

theorem text_eq_cons {b : List Char} {g : Gap} (h : Legal b g) (hne : g ≠ []) :
    ∃ c cs, text g = c :: cs ∧ (isBlank c = true ∨ c = ';') := by
  cases g with
  | nil => exact absurd rfl hne
  | cons f g =>
    cases f with
    | blank c => exact ⟨c, text g, rfl, Or.inl h.1⟩
    | comment l => exact ⟨';', l.text ++ text g, rfl, Or.inr rfl⟩

/-- With a newline behind it, a gap is a gap in front of anything: if the text
closed its last comment, the newline does so now. -/
theorem Legal.newline {b : List Char} {g : Gap} (h : Legal b g) :
    ∃ g', text g' = text g ++ ['\n'] ∧ ∀ b', Legal b' g' := by
  induction g with
  | nil =>
    have hblank : isBlank '\n' = true := by decide
    exact ⟨[.blank '\n'], rfl, fun _ => ⟨hblank, trivial⟩⟩
  | cons f g ih =>
    obtain ⟨g', htext, hlegal⟩ := ih h.2
    cases f with
    | blank c =>
      exact ⟨.blank c :: g', by simp [text, htext], fun b' => ⟨h.1, hlegal b'⟩⟩
    | comment l =>
      obtain ⟨body, closed⟩ := l
      cases closed with
      | true =>
        refine ⟨.comment ⟨body, true⟩ :: g', by simp [text, htext], fun b' => ⟨?_, hlegal b'⟩⟩
        exact ⟨h.1.1, fun hclosed => by simp at hclosed⟩
      | false =>
        -- The text ends here, so nothing of the gap is left behind the comment.
        have hnil : text g ++ b = [] := h.1.2 rfl
        have hg : text g = [] := (List.append_eq_nil_iff.1 hnil).1
        refine ⟨[.comment ⟨body, true⟩], by simp [text, Filler.text, Line.text, hg], fun b' => ?_⟩
        exact ⟨⟨h.1.1, fun hclosed => by simp at hclosed⟩, trivial⟩

end Gap

/-! ## Expressions -/

theorem QuoteKind.marker_cons (k : QuoteKind) :
    ∃ c cs, k.marker.toList = c :: cs ∧ (c = '\x27' ∨ c = '\x60' ∨ c = ',') := by
  cases k with
  | quote => exact ⟨_, [], rfl, Or.inl rfl⟩
  | quasiquote => exact ⟨_, [], rfl, Or.inr (Or.inl rfl)⟩
  | unquote => exact ⟨_, [], rfl, Or.inr (Or.inr rfl)⟩
  | unquoteSplicing => exact ⟨_, ['@'], rfl, Or.inr (Or.inr rfl)⟩

/-- A character of an atom, or the backslash before it, does not belong to a
gap. -/
theorem AtomUnit.text_eq_cons {u : AtomUnit} (h : u.Legal) :
    ∃ c cs, u.text = c :: cs ∧ (isReserved c = false ∨ c = '\\') := by
  cases u with
  | plain c => exact ⟨c, [], rfl, Or.inl h⟩
  | escaped c => exact ⟨'\\', [c], rfl, Or.inr rfl⟩

namespace Derivation

/-- The first character of an expression decides its form.  It belongs to no gap,
and it closes nothing. -/
theorem text_eq_cons {d : Derivation} {b : List Char} (h : d.Legal b) :
    ∃ c cs, d.text = c :: cs ∧ isBlank c = false ∧ c ≠ ';' ∧ c ≠ ')' := by
  cases d with
  | atom us =>
    obtain ⟨hne, hus, _⟩ := h
    cases us with
    | nil => exact absurd rfl hne
    | cons u us =>
      obtain ⟨c, cs, hcs, hc⟩ := u.text_eq_cons (hus u List.mem_cons_self)
      refine ⟨c, cs ++ us.flatMap AtomUnit.text, by simp [text, hcs], ?_⟩
      rcases hc with hplain | rfl
      · refine ⟨isBlank_eq_false_of_isReserved hplain, ?_, ?_⟩
        · rintro rfl
          exact absurd hplain (by decide)
        · rintro rfl
          exact absurd hplain (by decide)
      · decide
  | string us => exact ⟨'"', _, rfl, by decide⟩
  | list gap items => exact ⟨'(', _, rfl, by decide⟩
  | quotation k gap body =>
    obtain ⟨c, cs, hcs, hc⟩ := QuoteKind.marker_cons k
    refine ⟨c, cs ++ (gap.text ++ body.text), by simp [text, hcs], ?_⟩
    rcases hc with rfl | rfl | rfl <;> decide

theorem text_ne_nil {d : Derivation} {b : List Char} (h : d.Legal b) : d.text ≠ [] := by
  obtain ⟨c, cs, hcs, _⟩ := text_eq_cons h
  simp [hcs]

theorem endsGap_text_append {d : Derivation} {b : List Char} (h : d.Legal b) (b' : List Char) :
    EndsGap (d.text ++ b') := by
  obtain ⟨c, cs, hcs, hblank, hcomment, _⟩ := text_eq_cons h
  intro a ha
  obtain rfl : c = a := by simpa [hcs] using ha
  exact ⟨hblank, hcomment⟩

end Derivation

namespace Derivations

theorem text_ne_nil_of_cons {head : Derivation} {gap : Gap} {tail : Derivations} {b : List Char}
    (h : (cons head gap tail).Legal b) : (cons head gap tail).text ≠ [] := by
  have hne := Derivation.text_ne_nil h.1
  simp [text, hne]

theorem endsGap_text_append {ds : Derivations} {b b' : List Char} (h : ds.Legal b)
    (hb : EndsGap b') : EndsGap (ds.text ++ b') := by
  cases ds with
  | nil => exact hb
  | cons head gap tail =>
    rw [text, List.append_assoc]
    exact Derivation.endsGap_text_append h.1 _

end Derivations

mutual
/-- An expression may stand in front of any text that an atom may end before, if
it may stand in front of one. -/
theorem Derivation.Legal.congr : {d : Derivation} → {b b' : List Char} → d.Legal b →
    (EndsAtom b → EndsAtom b') → d.Legal b'
  | .atom _, _, _, h, hb => ⟨h.1, h.2.1, hb h.2.2⟩
  | .string _, _, _, h, _ => h
  | .list gap items, b, b', h, _ => by
    refine ⟨h.1.congr fun hnil => ?_, h.2.congr (fun _ => endsAtom_close b') fun hnil => ?_⟩
    · exact absurd (List.append_eq_nil_iff.1 hnil).2 (by simp)
    · exact absurd hnil (by simp)
  | .quotation k gap body, b, b', h, hb => by
    have hne := Derivation.text_ne_nil h.2.2
    refine ⟨fun hk => ?_, h.2.1.congr fun hnil => ?_, h.2.2.congr hb⟩
    · have hat := h.1 hk
      rw [← List.append_assoc] at hat ⊢
      rwa [head?_append_congr (by simp [hne])]
    · exact absurd (List.append_eq_nil_iff.1 hnil).1 hne

theorem Derivations.Legal.congr : {ds : Derivations} → {b b' : List Char} → ds.Legal b →
    (EndsAtom b → EndsAtom b') → (b = [] → b' = []) → ds.Legal b'
  | .nil, _, _, _, _, _ => trivial
  | .cons head gap tail, b, b', h, hatom, hnil => by
    have hbehind : tail.text ++ b = [] → tail.text ++ b' = [] := fun hall => by
      have hparts := List.append_eq_nil_iff.1 hall
      rw [hparts.1, hnil hparts.2]
      rfl
    refine ⟨h.1.congr fun hends => ?_, h.2.1.congr hbehind, h.2.2.congr hatom hnil⟩
    by_cases hne : gap.text ++ tail.text = []
    · rw [← List.append_assoc, hne, List.nil_append] at hends ⊢
      exact hatom hends
    · rw [← List.append_assoc] at hends ⊢
      exact hends.congr (head?_append_congr hne)
end

end Grammar
end LispSyntax
