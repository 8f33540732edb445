/-
Derivations are determined by the text.

Two derivations of one text, each legal in front of what the other leaves behind
it, are the same and leave the same behind.  This is shown piece by piece: a gap,
a token or an expression splits off the front of a text in one way only.
-/
import LispSyntax.Proofs.Dispatch

namespace LispSyntax
namespace Grammar

open Text

/-! ## Gaps -/

theorem Line.append_inj {l l' : Line} {b b' : List Char} (h : l.text ++ b = l'.text ++ b')
    (hl : l.Legal b) (hl' : l'.Legal b') : l = l' ∧ b = b' := by
  obtain ⟨body, closed⟩ := l
  obtain ⟨body', closed'⟩ := l'
  induction body generalizing body' with
  | nil =>
    cases body' with
    | nil =>
      cases closed <;> cases closed' <;> simp_all [text, Legal]
    | cons a as =>
      cases closed with
      | true =>
        have ha : '\n' = a := by simp [text] at h; exact h.1
        exact absurd (ha ▸ List.mem_cons_self) hl'.1
      | false =>
        rw [hl.2 rfl] at h
        simp [text] at h
  | cons a as ih =>
    cases body' with
    | nil =>
      cases closed' with
      | true =>
        have ha : a = '\n' := by simp [text] at h; exact h.1
        exact absurd (ha ▸ List.mem_cons_self) hl.1
      | false =>
        rw [hl'.2 rfl] at h
        simp [text] at h
    | cons a' as' =>
      have hparts : a = a' ∧ (Line.mk as closed).text ++ b = (Line.mk as' closed').text ++ b' := by
        simpa [text] using h
      have hrec := ih ⟨fun hmem => hl.1 (List.mem_cons_of_mem a hmem), hl.2⟩ as'
        ⟨fun hmem => hl'.1 (List.mem_cons_of_mem a' hmem), hl'.2⟩ hparts.2
      obtain ⟨heq, hb⟩ := hrec
      simp only [Line.mk.injEq] at heq
      exact ⟨by rw [hparts.1, heq.1, heq.2], hb⟩

/-- A gap splits off in one way, if nothing behind it goes on with it. -/
theorem Gap.append_inj {g g' : Gap} {b b' : List Char} (h : g.text ++ b = g'.text ++ b')
    (hg : g.Legal b) (hg' : g'.Legal b') (hb : EndsGap b) (hb' : EndsGap b') :
    g = g' ∧ b = b' := by
  -- A gap that is not empty cannot be empty in another reading.
  have hne : ∀ (f : Filler) (g g' : Gap) (b b' : List Char), Legal b (f :: g) → EndsGap b' →
      text (f :: g) ++ b ≠ b' := by
    intro f g g' b b' hfg hends heq
    obtain ⟨c, cs, hcs, hc⟩ := text_eq_cons hfg (by simp)
    have hends := hends c (by rw [← heq, hcs]; rfl)
    rcases hc with hblank | rfl
    · rw [hends.1] at hblank
      exact absurd hblank (by simp)
    · exact hends.2 rfl
  induction g generalizing g' with
  | nil =>
    cases g' with
    | nil => exact ⟨rfl, h⟩
    | cons f' g' => exact absurd h.symm (hne f' g' [] b' b hg' hb)
  | cons f g ih =>
    cases g' with
    | nil => exact absurd h (hne f g [] b b' hg hb')
    | cons f' g' =>
      have hstep : f = f' ∧ text g ++ b = text g' ++ b' := by
        rw [text, text, List.append_assoc, List.append_assoc] at h
        cases f with
        | blank c =>
          cases f' with
          | blank c' =>
            have hparts : c = c' ∧ text g ++ b = text g' ++ b' := by
              simpa [Filler.text] using h
            exact ⟨by rw [hparts.1], hparts.2⟩
          | comment l' =>
            have hc : c = ';' := by simp [Filler.text] at h; exact h.1
            have hblank : isBlank c = true := hg.1
            rw [hc] at hblank
            exact absurd hblank (by decide)
        | comment l =>
          cases f' with
          | blank c' =>
            have hc : ';' = c' := by simp [Filler.text] at h; exact h.1
            have hblank : isBlank c' = true := hg'.1
            rw [← hc] at hblank
            exact absurd hblank (by decide)
          | comment l' =>
            have htext : l.text ++ (text g ++ b) = l'.text ++ (text g' ++ b') := by
              simpa [Filler.text] using h
            obtain ⟨rfl, hrest⟩ := Line.append_inj htext hg.1 hg'.1
            exact ⟨rfl, hrest⟩
      obtain ⟨rfl, hrest⟩ := hstep
      obtain ⟨rfl, rfl⟩ := ih hrest hg.2 hg'.2
      exact ⟨rfl, rfl⟩

/-! ## Tokens -/

/-- A run of pieces splits off in one way, if every piece does so and no piece
starts what the run ends before. -/
theorem flatMap_append_inj {α : Type} {text : α → List Char} {legal : α → Prop}
    (stops : List Char → Prop)
    (hpiece : ∀ u u' cs cs', legal u → legal u' → text u ++ cs = text u' ++ cs' →
      u = u' ∧ cs = cs')
    (hstops : ∀ u cs, legal u → ¬stops (text u ++ cs)) {us us' : List α} {b b' : List Char}
    (h : us.flatMap text ++ b = us'.flatMap text ++ b') (hus : ∀ u ∈ us, legal u)
    (hus' : ∀ u ∈ us', legal u) (hb : stops b) (hb' : stops b') : us = us' ∧ b = b' := by
  induction us generalizing us' with
  | nil =>
    cases us' with
    | nil => exact ⟨rfl, h⟩
    | cons u' us' =>
      rw [List.flatMap_cons, List.append_assoc] at h
      refine absurd hb ?_
      rw [show b = _ from h]
      exact hstops u' _ (hus' u' List.mem_cons_self)
  | cons u us ih =>
    rw [List.flatMap_cons, List.append_assoc] at h
    cases us' with
    | nil =>
      refine absurd hb' ?_
      rw [show b' = _ from h.symm]
      exact hstops u _ (hus u List.mem_cons_self)
    | cons u' us' =>
      rw [List.flatMap_cons, List.append_assoc] at h
      obtain ⟨rfl, hrest⟩ := hpiece u u' _ _ (hus u List.mem_cons_self)
        (hus' u' List.mem_cons_self) h
      obtain ⟨rfl, rfl⟩ := ih hrest (fun v hv => hus v (List.mem_cons_of_mem u hv))
        fun v hv => hus' v (List.mem_cons_of_mem u hv)
      exact ⟨rfl, rfl⟩

theorem AtomUnit.append_inj (u u' : AtomUnit) (cs cs' : List Char) (hu : u.Legal) (hu' : u'.Legal)
    (h : u.text ++ cs = u'.text ++ cs') : u = u' ∧ cs = cs' := by
  have hslash : isReserved '\\' = true := by decide
  cases u with
  | plain c =>
    cases u' with
    | plain c' => simpa [text] using h
    | escaped c' =>
      have hc : c = '\\' := by simp [text] at h; exact h.1
      have hplain : isReserved c = false := hu
      rw [hc, hslash] at hplain
      exact absurd hplain (by simp)
  | escaped c =>
    cases u' with
    | plain c' =>
      have hc : '\\' = c' := by simp [text] at h; exact h.1
      have hplain : isReserved c' = false := hu'
      rw [← hc, hslash] at hplain
      exact absurd hplain (by simp)
    | escaped c' => simpa [text] using h

theorem atomUnits_append_inj {us us' : List AtomUnit} {b b' : List Char}
    (h : us.flatMap AtomUnit.text ++ b = us'.flatMap AtomUnit.text ++ b')
    (hus : ∀ u ∈ us, u.Legal) (hus' : ∀ u ∈ us', u.Legal) (hb : EndsAtom b) (hb' : EndsAtom b') :
    us = us' ∧ b = b' := by
  refine flatMap_append_inj EndsAtom AtomUnit.append_inj (fun u cs hu hends => ?_) h hus hus' hb hb'
  obtain ⟨c, ds, hds, hc⟩ := u.text_eq_cons hu
  have hends := hends c (by rw [hds]; rfl)
  rcases hc with hplain | rfl
  · rw [hplain] at hends
    exact absurd hends.1 (by simp)
  · exact hends.2 rfl

theorem StringUnit.append_inj (u u' : StringUnit) (cs cs' : List Char) (hu : u.Legal)
    (hu' : u'.Legal) (h : u.text ++ cs = u'.text ++ cs') : u = u' ∧ cs = cs' := by
  cases u with
  | plain c =>
    cases u' with
    | plain c' => simpa [text] using h
    | escape letter' c' =>
      have hc : c = '\\' := by simp [text] at h; exact h.1
      exact absurd hc hu.2
  | escape letter c =>
    cases u' with
    | plain c' =>
      have hc : '\\' = c' := by simp [text] at h; exact h.1
      exact absurd hc.symm hu'.2
    | escape letter' c' =>
      have hparts : letter = letter' ∧ cs = cs' := by simpa [text] using h
      obtain ⟨rfl, rfl⟩ := hparts
      have hc : some c = some c' := hu.symm.trans hu'
      obtain rfl := Option.some.inj hc
      exact ⟨rfl, rfl⟩

/-- The characters of a string split off, up to the delimiter, in one way. -/
theorem stringUnits_append_inj {us us' : List StringUnit} {b b' : List Char}
    (h : us.flatMap StringUnit.text ++ '"' :: b = us'.flatMap StringUnit.text ++ '"' :: b')
    (hus : ∀ u ∈ us, u.Legal) (hus' : ∀ u ∈ us', u.Legal) : us = us' ∧ b = b' := by
  have hstops : ∀ (u : StringUnit) (cs : List Char), u.Legal →
      ¬(u.text ++ cs).head? = some '"' := by
    intro u cs hu hhead
    cases u with
    | plain c => exact hu.1 (Option.some.inj hhead)
    | escape letter c => exact absurd (Option.some.inj hhead) (by decide)
  obtain ⟨hu, hb⟩ := flatMap_append_inj (fun cs => cs.head? = some '"')
    StringUnit.append_inj hstops h hus hus' rfl rfl
  exact ⟨hu, (List.cons.inj hb).2⟩

/-! ## Expressions -/

/-- A marker splits off in one way, the comma by what follows it. -/
theorem marker_append_inj {k k' : QuoteKind} {cs cs' : List Char}
    (h : k.marker.toList ++ cs = k'.marker.toList ++ cs')
    (hk : k = .unquote → cs.head? ≠ some '@') (hk' : k' = .unquote → cs'.head? ≠ some '@') :
    k = k' ∧ cs = cs' := by
  cases k <;> cases k' <;> simp only [QuoteKind.marker] at h <;> grind

theorem Derivation.form_eq {d d' : Derivation} {b b' : List Char} (h : d.text ++ b = d'.text ++ b')
    (hd : d.Legal b) (hd' : d'.Legal b') : d.form = d'.form := by
  have hstart := starting_text_append hd b
  rw [h, starting_text_append hd' b'] at hstart
  exact (Option.some.inj hstart).symm

mutual
theorem Derivation.append_inj : {d d' : Derivation} → {b b' : List Char} →
    d.text ++ b = d'.text ++ b' → d.Legal b → d'.Legal b' → d = d' ∧ b = b'
  | .atom us, d', b, b', h, hd, hd' => by
    have hform := Derivation.form_eq h hd hd'
    cases d' with
    | atom us' =>
      obtain ⟨rfl, rfl⟩ := atomUnits_append_inj h hd.2.1 hd'.2.1 hd.2.2 hd'.2.2
      exact ⟨rfl, rfl⟩
    | _ => simp [Derivation.form] at hform
  | .string us, d', b, b', h, hd, hd' => by
    have hform := Derivation.form_eq h hd hd'
    cases d' with
    | string us' =>
      have htext : us.flatMap StringUnit.text ++ '"' :: b =
          us'.flatMap StringUnit.text ++ '"' :: b' := by
        simpa [Derivation.text] using h
      obtain ⟨rfl, rfl⟩ := stringUnits_append_inj htext hd hd'
      exact ⟨rfl, rfl⟩
    | _ => simp [Derivation.form] at hform
  | .list gap items, d', b, b', h, hd, hd' => by
    have hform := Derivation.form_eq h hd hd'
    cases d' with
    | list gap' items' =>
      have htext : gap.text ++ (items.text ++ ')' :: b) =
          gap'.text ++ (items'.text ++ ')' :: b') := by
        simpa [Derivation.text] using h
      obtain ⟨rfl, hitems⟩ := Gap.append_inj htext hd.1 hd'.1
        (Derivations.endsGap_text_append hd.2 (endsGap_close b))
        (Derivations.endsGap_text_append hd'.2 (endsGap_close b'))
      obtain ⟨rfl, hb⟩ := Derivations.append_inj hitems hd.2 hd'.2 (by simp) (by simp)
      exact ⟨rfl, (List.cons.inj hb).2⟩
    | _ => simp [Derivation.form] at hform
  | .quotation k gap body, d', b, b', h, hd, hd' => by
    have hform := Derivation.form_eq h hd hd'
    cases d' with
    | quotation k' gap' body' =>
      have htext : k.marker.toList ++ (gap.text ++ (body.text ++ b)) =
          k'.marker.toList ++ (gap'.text ++ (body'.text ++ b')) := by
        simpa [Derivation.text] using h
      obtain ⟨rfl, hgap⟩ := marker_append_inj htext hd.1 hd'.1
      obtain ⟨rfl, hbody⟩ := Gap.append_inj hgap hd.2.1 hd'.2.1
        (Derivation.endsGap_text_append hd.2.2 b) (Derivation.endsGap_text_append hd'.2.2 b')
      obtain ⟨rfl, rfl⟩ := Derivation.append_inj hbody hd.2.2 hd'.2.2
      exact ⟨rfl, rfl⟩
    | _ => simp [Derivation.form] at hform

/-- Expressions with a gap behind each split off in one way, up to the end of the
text or a closing parenthesis. -/
theorem Derivations.append_inj : {ds ds' : Derivations} → {b b' : List Char} →
    ds.text ++ b = ds'.text ++ b' → ds.Legal b → ds'.Legal b' →
    (∀ c ∈ b.head?, c = ')') → (∀ c ∈ b'.head?, c = ')') → ds = ds' ∧ b = b'
  | .nil, .nil, _, _, h, _, _, _, _ => ⟨rfl, h⟩
  | .nil, .cons head' gap' tail', b, b', h, _, hds', hb, _ => by
    obtain ⟨c, cs, hcs, _, _, hc⟩ := Derivation.text_eq_cons hds'.1
    have hhead : b.head? = some c := by
      rw [show b = _ from h, Derivations.text, hcs]
      rfl
    exact absurd (hb c hhead) hc
  | .cons head gap tail, .nil, b, b', h, hds, _, _, hb' => by
    obtain ⟨c, cs, hcs, _, _, hc⟩ := Derivation.text_eq_cons hds.1
    have hhead : b'.head? = some c := by
      rw [show b' = _ from h.symm, Derivations.text, hcs]
      rfl
    exact absurd (hb' c hhead) hc
  | .cons head gap tail, .cons head' gap' tail', b, b', h, hds, hds', hb, hb' => by
    have htext : head.text ++ (gap.text ++ (tail.text ++ b)) =
        head'.text ++ (gap'.text ++ (tail'.text ++ b')) := by
      simpa [Derivations.text] using h
    obtain ⟨rfl, hgap⟩ := Derivation.append_inj htext hds.1 hds'.1
    obtain ⟨rfl, htail⟩ := Gap.append_inj hgap hds.2.1 hds'.2.1
      (Derivations.endsGap_text_append hds.2.2 (endsGap_of_closes hb))
      (Derivations.endsGap_text_append hds'.2.2 (endsGap_of_closes hb'))
    obtain ⟨rfl, rfl⟩ := Derivations.append_inj htail hds.2.2 hds'.2.2 hb hb'
    exact ⟨rfl, rfl⟩
end

end Grammar
end LispSyntax
