/-
The order in which the forms are tried.

At most one of the four rules does anything but decline where it is tried, so every
order of the rules gives the outcome of `expression`.  This holds of its stall too.  The
stalls of rules that all decline come to the one that got furthest, the later of two at
one place, and a stall that got nowhere only says that no expression starts there.
`firstOf` takes the last rule first, which makes no difference since `Stall.further` is
associative.
-/
import LispSyntax.Proofs.Dispatch

namespace LispSyntax
namespace Grammar

/-- The rule declined at `c`, where it was tried. -/
def Outcome.Idle {α : Type} (c : Cursor) : Outcome α → Prop
  | .declined s => s.place = c
  | _ => False

/-- What is said of a stall at the end of a choice that was made at `c`. -/
def Stall.reported (c : Cursor) (s : Stall) : Stall :=
  if s.place.offset = c.offset then ⟨c, .noExpression⟩ else s

/-! ## Stalls of several rules -/

namespace Stall

theorem further_assoc (s t u : Stall) : (s.further t).further u = s.further (t.further u) := by
  unfold further
  by_cases hts : t.place.offset < s.place.offset
  · by_cases hut : u.place.offset < t.place.offset
    · have hus : u.place.offset < s.place.offset := Nat.lt_trans hut hts
      simp only [if_pos hts, if_pos hut, if_pos hus]
    · simp only [if_pos hts, if_neg hut]
  · by_cases hut : u.place.offset < t.place.offset
    · simp only [if_neg hts, if_pos hut]
    · have hus : ¬u.place.offset < s.place.offset := by omega
      simp only [if_neg hts, if_neg hut, if_neg hus]

theorem further_start {c : Cursor} {s : Stall} (h : c.Reaches s.place) :
    s.further ⟨c, .noExpression⟩ = s.reported c := by
  have hle := h.offset_le
  unfold further reported
  by_cases heq : s.place.offset = c.offset
  · rw [if_pos heq, heq, if_neg (Nat.lt_irrefl _)]
  · rw [if_neg heq]
    exact if_pos (Nat.lt_of_le_of_ne hle (Ne.symm heq))

theorem foldr_further (s t : Stall) (ss : List Stall) :
    (s :: ss).foldr further t = (ss.foldl further s).further t := by
  induction ss generalizing s with
  | nil => rfl
  | cons u ss ih =>
    calc (s :: u :: ss).foldr further t
        = s.further ((u :: ss).foldr further t) := rfl
      _ = (s.further u :: ss).foldr further t := by
        rw [List.foldr_cons, List.foldr_cons, further_assoc]
      _ = ((u :: ss).foldl further s).further t := ih (s.further u)

theorem foldl_further_reaches {c : Cursor} {s : Stall} {ss : List Stall}
    (hs : c.Reaches s.place) (hss : ∀ t ∈ ss, c.Reaches t.place) :
    c.Reaches (ss.foldl further s).place := by
  induction ss generalizing s with
  | nil => exact hs
  | cons t ss ih =>
    exact ih (further_reaches hs (hss t List.mem_cons_self))
      fun u hu => hss u (List.mem_cons_of_mem t hu)

end Stall

section Declined

variable {α : Type} {rule : α → Rule} {stall : α → Stall} {c : Cursor}

theorem firstOf_eq_foldr {as : List α} (h : ∀ a ∈ as, rule a c = .declined (stall a)) :
    firstOf (as.map rule) c =
      .declined ((as.map stall).foldr Stall.further ⟨c, .noExpression⟩) := by
  induction as with
  | nil => rfl
  | cons a as ih =>
    have ha := h a List.mem_cons_self
    have has := ih fun b hb => h b (List.mem_cons_of_mem a hb)
    simp only [List.map_cons, firstOf, ha, has, List.foldr_cons]

/-- Of rules that all decline, the stall that got furthest is reported. -/
theorem firstOf_eq_reported {a : α} {as : List α}
    (h : ∀ b ∈ a :: as, rule b c = .declined (stall b) ∧ c.Reaches (stall b).place) :
    firstOf ((a :: as).map rule) c =
      .declined (((as.map stall).foldl Stall.further (stall a)).reported c) := by
  have hreaches : c.Reaches ((as.map stall).foldl Stall.further (stall a)).place := by
    refine Stall.foldl_further_reaches (h a List.mem_cons_self).2 fun t ht => ?_
    obtain ⟨b, hb, rfl⟩ := List.mem_map.1 ht
    exact (h b (List.mem_cons_of_mem a hb)).2
  rw [firstOf_eq_foldr fun b hb => (h b hb).1, List.map_cons, Stall.foldr_further,
    Stall.further_start hreaches]

end Declined

/-! ## The four rules -/

/-- Only the rule of the form that starts here does anything but decline here. -/
theorem Form.starting_of_not_idle {deeper : Option Rule} {f : Form} {c : Cursor}
    (h : ¬(f.rule deeper c).Idle c) : Form.starting c.rest = some f := by
  refine Decidable.byContradiction fun hstart => h ?_
  rw [Form.rule_declines deeper hstart]
  rfl

/-- Whatever the levels that are left, one rule at most does anything but decline where
it is tried, and the rules give the outcome of `expression` in any order.  If all of
them decline, its stall is the furthest of theirs, or says that no expression starts
there. -/
theorem firstOf_of_perm (levels : Nat) (c : Cursor) :
    (∀ f g : Form, ¬(f.rule (below levels) c).Idle c → ¬(g.rule (below levels) c).Idle c →
      f = g) ∧
    (∀ forms : List Form, forms.Perm Form.all →
      firstOf (forms.map (Form.rule (below levels))) c = expression levels c) ∧
    ∀ (f : Form) (forms : List Form) (stall : Form → Stall), (f :: forms).Perm Form.all →
      (∀ g : Form, g.rule (below levels) c = .declined (stall g)) →
        expression levels c =
          .declined (((forms.map stall).foldl Stall.further (stall f)).reported c) := by
  have hperm : ∀ forms : List Form, forms.Perm Form.all →
      firstOf (forms.map (Form.rule (below levels))) c = expression levels c := by
    intro forms hforms
    have hnodup : forms.Nodup := hforms.nodup_iff.2 (by decide)
    have hall : ∀ f, f ∈ forms := by
      intro f
      rw [hforms.mem_iff]
      cases f <;> decide
    rw [firstOf_forms below_reads hnodup hall, expression_eq]
  refine ⟨fun f g hf hg => ?_, hperm, fun f forms stall hforms hstall => ?_⟩
  · have hstart := Form.starting_of_not_idle hf
    rw [Form.starting_of_not_idle hg] at hstart
    exact (Option.some.inj hstart).symm
  · rw [← hperm _ hforms]
    refine firstOf_eq_reported fun g _ => ⟨hstall g, ?_⟩
    have hreads := Form.rule_reads (@below_reads levels) g c
    rw [hstall g] at hreads
    exact hreads

/-- In front of a marker and a comment with nothing behind them, quotations are tried
first, and the stall is at the end of the text. -/
theorem firstOf_of_perm_quotation :
    firstOf ([.quotation, .string, .atom, .list].map (Form.rule (below 3))) ⟨0, ",@ ;".toList⟩ =
      expression 3 ⟨0, ",@ ;".toList⟩ ∧
    expression 3 ⟨0, ",@ ;".toList⟩ = .declined ⟨⟨4, []⟩, .noExpression⟩ ∧
    ∃ f : Form, ¬(f.rule (below 3) ⟨0, ",@ ;".toList⟩).Idle ⟨0, ",@ ;".toList⟩ ∧
      ∀ g : Form, ¬(g.rule (below 3) ⟨0, ",@ ;".toList⟩).Idle ⟨0, ",@ ;".toList⟩ → f = g := by
  obtain ⟨hone, horder, hstalls⟩ := firstOf_of_perm 3 ⟨0, ",@ ;".toList⟩
  have hquotation : Form.rule (below 3) .quotation ⟨0, ",@ ;".toList⟩ =
      .declined ⟨⟨4, []⟩, .noExpression⟩ := rfl
  have hbusy : ¬(Form.rule (below 3) .quotation ⟨0, ",@ ;".toList⟩).Idle ⟨0, ",@ ;".toList⟩ := by
    rw [hquotation]
    simp [Outcome.Idle]
  refine ⟨horder _ (by decide), ?_, .quotation, hbusy, fun g hg => hone _ g hbusy hg⟩
  refine hstalls .string [.quotation, .list, .atom]
    (fun g => if g = Form.quotation then ⟨⟨4, []⟩, .noExpression⟩
      else ⟨⟨0, ",@ ;".toList⟩, g.missing⟩) (by decide) fun g => ?_
  cases g with
  | quotation => exact hquotation
  | _ => rfl

end Grammar
end LispSyntax
