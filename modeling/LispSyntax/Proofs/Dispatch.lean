/-
The first character of an expression decides its form.

`Form.starting` names the form that a text starts with.  The rules of the other
forms decline where they are tried, and the rule of that form never does so
without reading on.  Hence trying the forms in turn comes to one call, which is
`expression_eq`, and the order in which they are tried does not matter.
-/
import LispSyntax.Grammar.Reach
import LispSyntax.Proofs.Behind

namespace LispSyntax
namespace Grammar

open Text

/-- The form of expression that a text starts with. -/
def Form.starting : List Char → Option Form
  | [] => none
  | c :: _ =>
    if c = '(' then some .list
    else if c = '"' then some .string
    else if c = '\x27' ∨ c = '\x60' ∨ c = ',' then some .quotation
    else if isReserved c = true ∧ c ≠ '\\' then none
    else some .atom

theorem Form.starting_congr {cs ds : List Char} (h : cs.head? = ds.head?) :
    starting cs = starting ds := by
  cases cs with
  | nil =>
    cases ds with
    | nil => rfl
    | cons d ds => simp at h
  | cons c cs =>
    cases ds with
    | nil => simp at h
    | cons d ds =>
      obtain rfl : c = d := by simpa using h
      rfl

namespace Form

theorem starting_list {cs : List Char} (h : starting cs = some .list) : ∃ as, cs = '(' :: as := by
  cases cs with
  | nil => simp [starting] at h
  | cons c cs =>
    rw [starting] at h
    have hc : c = '(' := by grind
    exact ⟨cs, by rw [hc]⟩

theorem starting_string {cs : List Char} (h : starting cs = some .string) :
    ∃ as, cs = '"' :: as := by
  cases cs with
  | nil => simp [starting] at h
  | cons c cs =>
    rw [starting] at h
    have hc : c = '"' := by grind
    exact ⟨cs, by rw [hc]⟩

theorem starting_quotation {cs : List Char} (h : starting cs = some .quotation) :
    ∃ a as, cs = a :: as ∧ (a = '\x27' ∨ a = '\x60' ∨ a = ',') := by
  cases cs with
  | nil => simp [starting] at h
  | cons c cs =>
    rw [starting] at h
    exact ⟨c, cs, rfl, by grind⟩

theorem starting_atom {cs : List Char} (h : starting cs = some .atom) :
    ∃ a as, cs = a :: as ∧ (isReserved a = false ∨ a = '\\') := by
  cases cs with
  | nil => simp [starting] at h
  | cons c cs =>
    rw [starting] at h
    exact ⟨c, cs, rfl, by grind⟩

theorem starting_eq_atom {c : Char} (h : isReserved c = false ∨ c = '\\') (cs : List Char) :
    starting (c :: cs) = some .atom := by
  rcases h with hplain | rfl
  · have hne : c ≠ '(' ∧ c ≠ '"' ∧ c ≠ '\x27' ∧ c ≠ '\x60' ∧ c ≠ ',' := by
      refine ⟨?_, ?_, ?_, ?_, ?_⟩ <;> rintro rfl <;> exact absurd hplain (by decide)
    simp [starting, hne, hplain]
  · rfl

theorem starting_eq_quotation {c : Char} (h : c = '\x27' ∨ c = '\x60' ∨ c = ',')
    (cs : List Char) : starting (c :: cs) = some .quotation := by
  rcases h with rfl | rfl | rfl <;> rfl

theorem endsGap_of_starting {cs : List Char} {f : Form} (h : starting cs = some f) :
    EndsGap cs := by
  intro d hd
  cases f with
  | list =>
    obtain ⟨as, rfl⟩ := starting_list h
    obtain rfl : '(' = d := by simpa using hd
    decide
  | string =>
    obtain ⟨as, rfl⟩ := starting_string h
    obtain rfl : '"' = d := by simpa using hd
    decide
  | quotation =>
    obtain ⟨a, as, rfl, ha⟩ := starting_quotation h
    obtain rfl : a = d := by simpa using hd
    rcases ha with rfl | rfl | rfl <;> decide
  | atom =>
    obtain ⟨a, as, rfl, ha⟩ := starting_atom h
    obtain rfl : a = d := by simpa using hd
    rcases ha with hplain | rfl
    · refine ⟨isBlank_eq_false_of_isReserved hplain, ?_⟩
      rintro rfl
      exact absurd hplain (by decide)
    · decide

end Form

def Derivation.form : Derivation → Form
  | .atom _ => .atom
  | .string _ => .string
  | .list _ _ => .list
  | .quotation _ _ _ => .quotation

theorem Derivation.starting_text_append {d : Derivation} {b : List Char} (h : d.Legal b)
    (b' : List Char) : Form.starting (d.text ++ b') = some d.form := by
  cases d with
  | atom us =>
    obtain ⟨hne, hus, _⟩ := h
    cases us with
    | nil => exact absurd rfl hne
    | cons u us =>
      obtain ⟨c, cs, hcs, hc⟩ := u.text_eq_cons (hus u List.mem_cons_self)
      rw [text, List.flatMap_cons, hcs]
      exact Form.starting_eq_atom hc _
  | string us => rfl
  | list gap items => rfl
  | quotation k gap body =>
    obtain ⟨c, cs, hcs, hc⟩ := QuoteKind.marker_cons k
    rw [text, hcs]
    exact Form.starting_eq_quotation hc _

/-- Where no expression starts, neither does an atom go on. -/
theorem endsAtom_of_starting {cs : List Char} (h : Form.starting cs ≠ some .atom) :
    EndsAtom cs := by
  cases cs with
  | nil => exact endsAtom_nil
  | cons c cs =>
    intro d hd
    obtain rfl : c = d := by simpa using hd
    by_cases hc : isReserved c = true ∧ c ≠ '\\'
    · exact hc
    · exfalso
      apply h
      have hlist : c ≠ '(' := by rintro rfl; exact hc (by decide)
      have hstring : c ≠ '"' := by rintro rfl; exact hc (by decide)
      have hmark : ¬(c = '\x27' ∨ c = '\x60' ∨ c = ',') := by
        rintro (rfl | rfl | rfl) <;> exact hc (by decide)
      rw [Form.starting, if_neg hlist, if_neg hstring, if_neg hmark, if_neg hc]

theorem Form.starting_eq_none {c : Char} {cs : List Char} (h : starting (c :: cs) = none) :
    isReserved c = true ∧ c ≠ '(' ∧ c ≠ '"' ∧ c ≠ '\x27' ∧ c ≠ '\x60' ∧ c ≠ ',' ∧ c ≠ '\\' := by
  rw [starting] at h
  grind

/-- Behind a gap, no expression starts only at the end of the text or at a closing
parenthesis. -/
theorem Form.starting_eq_none_iff {cs : List Char} (h : EndsGap cs) :
    starting cs = none ↔ ∀ c ∈ cs.head?, c = ')' := by
  cases cs with
  | nil => simp [starting]
  | cons c cs =>
    have hgap := h c rfl
    constructor
    · intro hnone d hd
      obtain rfl : c = d := by simpa using hd
      obtain ⟨hres, hne⟩ := starting_eq_none hnone
      simp only [isReserved, hgap.1, Bool.or_false, Bool.or_eq_true, beq_iff_eq] at hres
      grind
    · intro hclose
      obtain rfl : c = ')' := hclose c rfl
      rfl

/-! ## Tokens that do not start -/

theorem atomToken_of_endsAtom {c : Cursor} (h : EndsAtom c.rest) :
    atomToken c = .declined ⟨c, .noAtom⟩ := by
  obtain ⟨o, rest⟩ := c
  cases rest with
  | nil => rfl
  | cons a as =>
    obtain ⟨hres, hslash⟩ := h a rfl
    show atomRun [] o (a :: as) = _
    unfold atomRun
    split
    · simp_all
    · simp_all
    · simp_all
    · next heq =>
      obtain ⟨rfl, rfl⟩ := heq
      rw [if_pos hres]
      rfl

theorem stringToken_of_head {c : Cursor} (h : c.rest.head? ≠ some '"') :
    stringToken c = .declined ⟨c, .noString⟩ := by
  unfold stringToken
  split
  · next cs hrest =>
    rw [hrest] at h
    exact absurd rfl h
  · rfl

theorem markerToken_of_head {c : Cursor}
    (h : ∀ a ∈ c.rest.head?, a ≠ '\x27' ∧ a ≠ '\x60' ∧ a ≠ ',') :
    markerToken c = .declined ⟨c, .noQuotation⟩ := by
  unfold markerToken
  split
  · next hrest => rw [hrest] at h; exact absurd rfl (h _ rfl).1
  · next hrest => rw [hrest] at h; exact absurd rfl (h _ rfl).2.1
  · next hrest => rw [hrest] at h; exact absurd rfl (h _ rfl).2.2
  · next hrest => rw [hrest] at h; exact absurd rfl (h _ rfl).2.2
  · rfl

/-! ## Tokens that start -/

theorem closeAtom_ne_declined {done : List Char} (hdone : done ≠ []) (c : Cursor) (s : Stall) :
    closeAtom done c ≠ .declined s := by
  have hne : done.isEmpty = false := by simpa using hdone
  simp [closeAtom, hne]

theorem atomRun_ne_declined {done : List Char} (hdone : done ≠ []) (o : Nat) (cs : List Char)
    (s : Stall) : atomRun done o cs ≠ .declined s := by
  fun_induction atomRun done o cs with
  | case1 done o => exact closeAtom_ne_declined hdone _ s
  | case2 done o => simp
  | case3 done o a cs _ ih => exact ih (by simp)
  | case4 done o a cs _ => simp
  | case5 done o a cs _ _ _ => exact closeAtom_ne_declined hdone _ s
  | case6 done o a cs _ _ _ ih => exact ih (by simp)

theorem stringRun_ne_declined (done : List Char) (o : Nat) (cs : List Char) (s : Stall) :
    stringRun done o cs ≠ .declined s := by
  fun_induction stringRun done o cs with
  | case1 done o => simp
  | case2 done o cs => simp
  | case3 done o => simp
  | case4 done o a cs d _ ih => exact ih
  | case5 done o a cs _ => simp
  | case6 done o a cs _ _ _ ih => exact ih

theorem atomToken_ne_declined {c : Cursor} (h : Form.starting c.rest = some .atom) (s : Stall) :
    atomToken c ≠ .declined s := by
  obtain ⟨o, rest⟩ := c
  obtain ⟨a, as, rfl, ha⟩ := Form.starting_atom h
  show atomRun [] o (a :: as) ≠ _
  unfold atomRun
  split
  · simp_all
  · simp
  · split
    · exact atomRun_ne_declined (by simp) _ _ s
    · simp
  · next hlone hescape heq =>
    obtain ⟨rfl, rfl⟩ := heq
    rcases ha with hplain | rfl
    · rw [if_neg (by simp [hplain])]
      exact atomRun_ne_declined (by simp) _ _ s
    · exfalso
      cases as with
      | nil => exact hlone rfl rfl
      | cons b as => exact hescape b as rfl rfl

theorem stringToken_ne_declined {c : Cursor} (h : Form.starting c.rest = some .string) (s : Stall) :
    stringToken c ≠ .declined s := by
  obtain ⟨o, rest⟩ := c
  obtain ⟨as, rfl⟩ := Form.starting_string h
  exact stringRun_ne_declined [] (o + 1) as s

theorem markerToken_ne_declined {c : Cursor} (h : Form.starting c.rest = some .quotation)
    (s : Stall) : markerToken c ≠ .declined s := by
  obtain ⟨o, rest⟩ := c
  obtain ⟨a, as, rfl, ha⟩ := Form.starting_quotation h
  unfold markerToken
  rcases ha with rfl | rfl | rfl
  · simp
  · simp
  · split <;> simp_all

theorem markerToken_ne_failed (c : Cursor) (s : Stall) : markerToken c ≠ .failed s := by
  unfold markerToken
  split <;> simp

theorem markerToken_of_starting {c : Cursor} (h : Form.starting c.rest = some .quotation) :
    ∃ (k : QuoteKind) (next : Cursor), markerToken c = .matched k next := by
  cases hmarker : markerToken c with
  | matched k next => exact ⟨k, next, rfl⟩
  | declined s => exact absurd hmarker (markerToken_ne_declined h s)
  | failed s => exact absurd hmarker (markerToken_ne_failed c s)

/-! ## Forms -/

/-- The rule for what stands one level deeper, if that is allowed. -/
def below : Nat → Option Rule
  | 0 => none
  | levels + 1 => some (expression levels)

theorem below_reads {levels : Nat} : ∀ rule ∈ below levels, rule.Reads := by
  intro rule hrule
  cases levels with
  | zero => simp [below] at hrule
  | succ levels =>
    obtain rfl : expression levels = rule := by simpa [below] using hrule
    exact expression_reads levels

/-- Why a rule declines where its form does not start. -/
def Form.missing : Form → Cause
  | .list => .noList
  | .atom => .noAtom
  | .string => .noString
  | .quotation => .noQuotation

/-- The rule of a form that does not start here declines here. -/
theorem Form.rule_declines (deeper : Option Rule) {f : Form} {c : Cursor}
    (h : Form.starting c.rest ≠ some f) : f.rule deeper c = .declined ⟨c, f.missing⟩ := by
  cases f with
  | list =>
    show listRule deeper c = _
    unfold listRule
    split
    · next hrest => rw [hrest] at h; exact absurd rfl h
    · next hrest => rw [hrest] at h; exact absurd rfl h
    · rfl
  | atom =>
    show atomRule c = _
    rw [atomRule, atomToken_of_endsAtom (endsAtom_of_starting h)]
    rfl
  | string =>
    show stringRule c = _
    have hhead : c.rest.head? ≠ some '"' := by
      intro hhead
      have hcongr : starting c.rest = starting ['"'] := starting_congr hhead
      exact h (hcongr.trans rfl)
    rw [stringRule, stringToken_of_head hhead]
    rfl
  | quotation =>
    have hhead : ∀ a ∈ c.rest.head?, a ≠ '\x27' ∧ a ≠ '\x60' ∧ a ≠ ',' := by
      intro a ha
      have hcongr : starting c.rest = starting [a] := starting_congr ha
      rw [hcongr] at h
      refine ⟨?_, ?_, ?_⟩ <;> rintro rfl <;> exact h rfl
    simp [rule, quotationRule, markerToken_of_head hhead, missing]

/-- The rule of the form that starts here declines only further on.  Of the four
rules only the one for quotations does so at all. -/
theorem Form.rule_advances {deeper : Option Rule} (hdeeper : ∀ rule ∈ deeper, rule.Reads)
    {f : Form} {c : Cursor} (h : Form.starting c.rest = some f) {s : Stall}
    (hs : f.rule deeper c = .declined s) : c.offset < s.place.offset := by
  cases f with
  | list =>
    obtain ⟨o, rest⟩ := c
    obtain ⟨as, rfl⟩ := starting_list h
    exfalso
    cases deeper with
    | none => simp [rule, listRule] at hs
    | some rule =>
      change listRule (some rule) ⟨o, '(' :: as⟩ = _ at hs
      simp only [listRule] at hs
      split at hs
      · simp at hs
      · split at hs <;> simp at hs
  | atom =>
    exfalso
    change atomRule c = _ at hs
    unfold atomRule at hs
    split at hs
    · simp at hs
    · next t ht => exact atomToken_ne_declined h t ht
    · simp at hs
  | string =>
    exfalso
    change stringRule c = _ at hs
    unfold stringRule at hs
    split at hs
    · simp at hs
    · next t ht => exact stringToken_ne_declined h t ht
    · simp at hs
  | quotation =>
    change quotationRule deeper c = _ at hs
    have hfrom := markerToken_from c
    unfold quotationRule at hs
    split at hs
    · simp at hs
    · next k next rule hmark =>
      rw [hmark] at hfrom
      have hinner := hdeeper rule rfl next.pastGap
      split at hs
      · simp at hs
      · next t ht =>
        rw [ht] at hinner
        obtain rfl : t = s := by simpa using hs
        have hpass := Cursor.Passes.trans_reaches hfrom next.pastGap_reaches
        exact (hpass.trans_reaches hinner).offset_lt
      · simp at hs
    · next hmark => exact absurd hmark (markerToken_ne_declined h _)
    · simp at hs

/-! ## The choice between the forms -/

theorem firstOf_of_declines {rules : List Rule} {c : Cursor}
    (h : ∀ r ∈ rules, ∃ k, r c = .declined ⟨c, k⟩) :
    firstOf rules c = .declined ⟨c, .noExpression⟩ := by
  induction rules with
  | nil => rfl
  | cons r rs ih =>
    obtain ⟨k, hk⟩ := h r List.mem_cons_self
    have hrest := ih fun q hq => h q (List.mem_cons_of_mem r hq)
    simp [firstOf, hk, hrest, Stall.further]

/-- If one rule reads on or does not decline, and all others decline where they
are tried, the choice is that rule, wherever it stands. -/
theorem firstOf_append_cons {as bs : List Rule} {r : Rule} {c : Cursor}
    (ha : ∀ q ∈ as, ∃ k, q c = .declined ⟨c, k⟩) (hb : ∀ q ∈ bs, ∃ k, q c = .declined ⟨c, k⟩)
    (hr : ∀ s, r c = .declined s → c.offset < s.place.offset) :
    firstOf (as ++ r :: bs) c = r c := by
  induction as with
  | nil =>
    have hrest := firstOf_of_declines hb
    cases hrc : r c with
    | matched n next => simp [firstOf, hrc]
    | failed s => simp [firstOf, hrc]
    | declined s =>
      have hlt := hr s hrc
      simp [firstOf, hrc, hrest, Stall.further, hlt]
  | cons q as ih =>
    obtain ⟨k, hk⟩ := ha q List.mem_cons_self
    have hrest := ih fun p hp => ha p (List.mem_cons_of_mem q hp)
    rw [List.cons_append]
    cases hrc : r c with
    | matched n next => simp [firstOf, hk, hrest, hrc]
    | failed s => simp [firstOf, hk, hrest, hrc]
    | declined s =>
      have hlt := hr s hrc
      have hge : ¬s.place.offset < c.offset := by omega
      simp [firstOf, hk, hrest, hrc, Stall.further, hge]

/-- Trying every form once, in any order, comes to the rule of the form that
starts here. -/
theorem firstOf_forms {deeper : Option Rule} (hdeeper : ∀ rule ∈ deeper, rule.Reads)
    {forms : List Form} (hnodup : forms.Nodup) (hall : ∀ f, f ∈ forms) (c : Cursor) :
    firstOf (forms.map (Form.rule deeper)) c =
      match Form.starting c.rest with
      | some f => f.rule deeper c
      | none => .declined ⟨c, .noExpression⟩ := by
  cases hstart : Form.starting c.rest with
  | none =>
    refine firstOf_of_declines fun r hr => ?_
    obtain ⟨f, _, rfl⟩ := List.mem_map.1 hr
    exact ⟨_, Form.rule_declines deeper (by simp [hstart])⟩
  | some f =>
    obtain ⟨as, bs, rfl⟩ := List.append_of_mem (hall f)
    have hothers : ∀ g, g ∈ as ∨ g ∈ bs → g ≠ f := by
      rintro g hg rfl
      grind
    have hdeclines : ∀ gs : List Form, (∀ g ∈ gs, g ≠ f) →
        ∀ r ∈ gs.map (Form.rule deeper), ∃ k, r c = .declined ⟨c, k⟩ := by
      intro gs hgs r hr
      obtain ⟨g, hg, rfl⟩ := List.mem_map.1 hr
      refine ⟨_, Form.rule_declines deeper ?_⟩
      rw [hstart]
      intro heq
      exact hgs g hg (Option.some.inj heq).symm
    rw [List.map_append, List.map_cons]
    exact firstOf_append_cons (hdeclines as fun g hg => hothers g (Or.inl hg))
      (hdeclines bs fun g hg => hothers g (Or.inr hg))
      fun s hs => Form.rule_advances hdeeper hstart hs

/-- An expression is read by the rule of the form that it starts with. -/
theorem expression_eq (levels : Nat) (c : Cursor) :
    expression levels c =
      match Form.starting c.rest with
      | some f => f.rule (below levels) c
      | none => .declined ⟨c, .noExpression⟩ := by
  have hnodup : Form.all.Nodup := by decide
  have hall : ∀ f, f ∈ Form.all := by
    intro f
    cases f <;> decide
  rw [← firstOf_forms below_reads hnodup hall]
  cases levels <;> rfl

end Grammar
end LispSyntax
