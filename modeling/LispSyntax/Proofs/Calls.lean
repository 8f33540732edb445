/-
The calls that reading an expression makes.

`expression` recurs on the number of levels that are left, and `sequence` on a bound for
its turns.  `Call.Runs` follows a call of the reader with neither of them: the depth is
counted from the top and compared with a limit, and a loop goes on for as long as an
expression is read.  A run is a finite tree of calls, so that a call without an end would
have no run.

Every call has a run, and one only.  The proof that it has one is by induction on what is
left of the text, of which every inner call has less, and not on the depth.  A run comes
to what `expression` says, and no more calls are open at a time than one for each level
and one below the last.
-/
import Mathlib.Logic.ExistsUnique
import LispSyntax.Proofs.Layout
import LispSyntax.Proofs.Repetition

namespace LispSyntax
namespace Grammar

open Text

/-- A call of the reader of expressions: where it starts, what it comes to, and how many
calls are open at a time while it runs, itself among them. -/
structure Call where
  place : Cursor
  outcome : Outcome (Node Nat)
  height : Nat

/-- How many calls are open at a time while the calls run one after the other. -/
def mostOpen (calls : List Call) : Nat := (calls.map Call.height).foldr max 0

theorem mostOpen_le {calls : List Call} {n : Nat} (h : ∀ k ∈ calls, k.height ≤ n) :
    mostOpen calls ≤ n := by
  induction calls with
  | nil => exact Nat.zero_le n
  | cons k calls ih =>
    have hcalls : mostOpen calls ≤ n := ih fun j hj => h j (List.mem_cons_of_mem k hj)
    show max k.height (mostOpen calls) ≤ n
    exact Nat.max_le.2 ⟨h k List.mem_cons_self, hcalls⟩

/-! ## Loops -/

/-- Reading expressions one after the other, of which `done`, in reverse, have been read,
makes the calls and comes to the result. -/
inductive Loop : List (Node Nat) → Cursor → List Call → Except Stall Sequence → Prop where
  | declined {done : List (Node Nat)} {c : Cursor} {s : Stall} {n : Nat} :
      Loop done c [⟨c, .declined s, n⟩] (.ok ⟨done.reverse, c, s⟩)
  | failed {done : List (Node Nat)} {c : Cursor} {s : Stall} {n : Nat} :
      Loop done c [⟨c, .failed s, n⟩] (.error s)
  | matched {done : List (Node Nat)} {c next : Cursor} {x : Node Nat} {n : Nat}
      {calls : List Call} {r : Except Stall Sequence} (rest : Loop (x :: done) next calls r) :
      Loop done c (⟨c, .matched x next, n⟩ :: calls) r

section Loops

variable {rule : Rule} {done : List (Node Nat)} {c : Cursor} {calls : List Call}
  {r : Except Stall Sequence}

/-- A loop whose calls come to what the rule says reads a sequence by the rule.  The bound
of the sequence is never used up. -/
theorem Loop.sequence_eq (hrule : rule.Reads) (h : Loop done c calls r)
    (hcalls : ∀ k ∈ calls, k.outcome = rule k.place) {bound : List Char}
    (hbound : c.rest.length ≤ bound.length) : sequence rule bound done c = r := by
  induction h generalizing bound with
  | declined =>
    have hc := (hcalls _ List.mem_cons_self).symm
    cases bound <;> simp [sequence, hc]
  | failed =>
    have hc := (hcalls _ List.mem_cons_self).symm
    cases bound <;> simp [sequence, hc]
  | @matched done c next x n calls r rest ih =>
    have hc : rule c = .matched x next := (hcalls _ List.mem_cons_self).symm
    have hlt : next.rest.length < c.rest.length := length_lt_of_matched hrule hc
    cases bound with
    | nil =>
      rw [List.length_nil] at hbound
      omega
    | cons b bound =>
      rw [List.length_cons] at hbound
      have hle : next.rest.length ≤ bound.length := by omega
      rw [← ih (fun k hk => hcalls k (List.mem_cons_of_mem _ hk)) hle]
      conv => lhs; unfold sequence
      rw [hc]

/-- If a call can be made at every place from `c` on, a loop from `c` comes to an end. -/
theorem exists_loop {good : Call → Prop} (hrule : rule.Reads)
    (hgood : ∀ p, c.Reaches p → ∃ k : Call, good k ∧ k.place = p ∧ k.outcome = rule p)
    (done : List (Node Nat)) :
    ∃ (calls : List Call) (r : Except Stall Sequence), Loop done c calls r ∧
      ∀ k ∈ calls, good k := by
  induction hn : c.rest.length using Nat.strongRecOn generalizing c done with
  | ind m ih =>
    obtain ⟨⟨place, outcome, n⟩, hk, rfl, hout⟩ := hgood c (.refl c)
    cases outcome with
    | declined s => exact ⟨_, _, .declined, by simpa using hk⟩
    | failed s => exact ⟨_, _, .failed, by simpa using hk⟩
    | matched x next =>
      have hpass : place.Passes next := by
        have hfrom := hrule place
        rwa [← hout] at hfrom
      obtain ⟨calls, r, hloop, hcalls⟩ := ih next.rest.length (hn ▸ hpass.length_lt)
        (fun p hp => hgood p (hpass.reaches.trans hp)) (x :: done) rfl
      exact ⟨_, r, .matched hloop, List.forall_mem_cons.2 ⟨hk, hcalls⟩⟩

end Loops

/-! ## Calls -/

/-- What becomes of the list that starts at `c` when the loop over its children is
over. -/
def closeList (c : Cursor) : Except Stall Sequence → Outcome (Node Nat)
  | .error s => .failed s
  | .ok q =>
    match q.stop.rest with
    | ')' :: after =>
      .matched (.list ⟨c.offset, q.stop.offset + 1⟩ q.nodes)
        (Cursor.pastGap ⟨q.stop.offset + 1, after⟩)
    | _ => .failed (q.stall.further ⟨q.stop, .openList⟩)

/-- What becomes of the quotation whose marker lies from `c` to `next` when its body has
been tried. -/
def closeQuotation (c : Cursor) (k : QuoteKind) (next : Cursor) :
    Outcome (Node Nat) → Outcome (Node Nat)
  | .matched body last =>
    .matched (.list ⟨c.offset, body.span.stop⟩ [.atom ⟨c.offset, next.offset⟩ k.name, body]) last
  | other => other

/-- Trying a form at `c` makes the calls, each one level deeper, and comes to the
outcome. -/
inductive Form.Tries (limit depth : Nat) (c : Cursor) :
    Form → List Call → Outcome (Node Nat) → Prop where
  | atom : Form.Tries limit depth c .atom [] (atomRule c)
  | string : Form.Tries limit depth c .string [] (stringRule c)
  | noList (starts : c.rest.head? ≠ some '(') :
      Form.Tries limit depth c .list [] (.declined ⟨c, .noList⟩)
  | deepList (starts : c.rest.head? = some '(') (deep : limit ≤ depth) :
      Form.Tries limit depth c .list [] (.failed ⟨c, .tooDeep⟩)
  | list {first : Cursor} {calls : List Call} {r : Except Stall Sequence}
      (starts : c.Over ['('] first) (deeper : depth < limit)
      (loop : Loop [] first.pastGap calls r) :
      Form.Tries limit depth c .list calls (closeList c r)
  | noMarker {s : Stall} (starts : markerToken c = .declined s) :
      Form.Tries limit depth c .quotation [] (.declined s)
  | deepMarker {k : QuoteKind} {next : Cursor} (starts : markerToken c = .matched k next)
      (deep : limit ≤ depth) : Form.Tries limit depth c .quotation [] (.failed ⟨c, .tooDeep⟩)
  | quotation {k : QuoteKind} {next : Cursor} {body : Call}
      (starts : markerToken c = .matched k next) (deeper : depth < limit)
      (place : body.place = next.pastGap) :
      Form.Tries limit depth c .quotation [body] (closeQuotation c k next body.outcome)

/-- What a choice comes to behind a form that declined with `s`. -/
def Outcome.behind {α : Type} (s : Stall) : Outcome α → Outcome α
  | .declined t => .declined (s.further t)
  | other => other

/-- Trying the forms in turn, until one does not decline, makes the calls and comes to the
outcome. -/
inductive Choice (limit depth : Nat) (c : Cursor) :
    List Form → List Call → Outcome (Node Nat) → Prop where
  | nil : Choice limit depth c [] [] (.declined ⟨c, .noExpression⟩)
  | decided {f : Form} {fs : List Form} {calls : List Call} {o : Outcome (Node Nat)}
      (form : f.Tries limit depth c calls o) (decides : ∀ s, o ≠ .declined s) :
      Choice limit depth c (f :: fs) calls o
  | declined {f : Form} {fs : List Form} {calls calls' : List Call} {s : Stall}
      {o : Outcome (Node Nat)} (form : f.Tries limit depth c calls (.declined s))
      (rest : Choice limit depth c fs calls' o) :
      Choice limit depth c (f :: fs) (calls ++ calls') (o.behind s)

/-- The call runs to its end, made at the given depth. -/
inductive Call.Runs (limit : Nat) : Nat → Call → Prop where
  | intro {depth : Nat} {k : Call} {calls : List Call}
      (choice : Choice limit depth k.place Form.all calls k.outcome)
      (inner : ∀ j ∈ calls, Call.Runs limit (depth + 1) j)
      (height_eq : k.height = mostOpen calls + 1) : Call.Runs limit depth k

variable {limit depth : Nat} {c : Cursor} {f : Form} {fs : List Form} {calls : List Call}
  {o : Outcome (Node Nat)} {k : Call}

/-! ## What a run comes to -/

theorem below_sub_of_lt (h : depth < limit) :
    below (limit - depth) = some (expression (limit - (depth + 1))) := by
  obtain ⟨n, hn⟩ : ∃ n, limit - depth = n + 1 := ⟨limit - depth - 1, by omega⟩
  rw [hn, show limit - (depth + 1) = n by omega]
  rfl

theorem below_sub_of_le (h : limit ≤ depth) : below (limit - depth) = none := by
  rw [Nat.sub_eq_zero_of_le h]
  rfl

theorem listRule_opening (deeper : Rule) (o : Nat) (cs : List Char) :
    listRule (some deeper) ⟨o, '(' :: cs⟩ =
      closeList ⟨o, '(' :: cs⟩ (sequence deeper cs [] (Cursor.pastGap ⟨o + 1, cs⟩)) := by
  simp only [listRule]
  cases sequence deeper cs [] (Cursor.pastGap ⟨o + 1, cs⟩) <;> rfl

/-- If the calls come to what `expression` says one level deeper, the form comes to what its
rule says. -/
theorem Form.Tries.rule_eq (h : f.Tries limit depth c calls o)
    (hcalls : ∀ k ∈ calls, k.outcome = expression (limit - (depth + 1)) k.place) :
    f.rule (below (limit - depth)) c = o := by
  cases h with
  | atom => rfl
  | string => rfl
  | noList starts =>
    refine Form.rule_declines _ fun hlist => ?_
    obtain ⟨as, has⟩ := Form.starting_list hlist
    exact starts (by rw [has]; rfl)
  | deepList starts deep =>
    obtain ⟨o, rest⟩ := c
    obtain ⟨cs, rfl⟩ : ∃ cs, rest = '(' :: cs := List.head?_eq_some_iff.1 starts
    rw [below_sub_of_le deep]
    rfl
  | @list first calls r starts deeper loop =>
    obtain ⟨o, rest⟩ := c
    obtain ⟨o', cs⟩ := first
    obtain rfl : rest = '(' :: cs := starts.1
    obtain rfl : o' = o + 1 := starts.2
    have hle := (Cursor.pastGap_reaches ⟨o + 1, cs⟩).length_le
    rw [below_sub_of_lt deeper]
    show listRule (some (expression (limit - (depth + 1)))) ⟨o, '(' :: cs⟩ = _
    rw [listRule_opening, loop.sequence_eq (expression_reads _) hcalls hle]
  | noMarker starts =>
    simp [Form.rule, quotationRule, starts]
  | deepMarker starts deep =>
    rw [below_sub_of_le deep]
    simp [Form.rule, quotationRule, starts]
  | @quotation k next body starts deeper place =>
    have hbody := hcalls body List.mem_cons_self
    rw [below_sub_of_lt deeper, hbody, place]
    cases hinner : expression (limit - (depth + 1)) next.pastGap <;>
      simp [Form.rule, quotationRule, starts, hinner, closeQuotation]

theorem Choice.firstOf_eq (h : Choice limit depth c fs calls o)
    (hcalls : ∀ k ∈ calls, k.outcome = expression (limit - (depth + 1)) k.place) :
    firstOf (fs.map (Form.rule (Grammar.below (limit - depth)))) c = o := by
  induction h with
  | nil => rfl
  | @decided f fs calls o form decides =>
    rw [List.map_cons, firstOf, form.rule_eq hcalls]
    cases o with
    | declined s => exact absurd rfl (decides s)
    | _ => rfl
  | @declined f fs calls calls' s o form rest ih =>
    have hform := form.rule_eq fun k hk => hcalls k (List.mem_append_left _ hk)
    have hrest := ih fun k hk => hcalls k (List.mem_append_right _ hk)
    rw [List.map_cons, firstOf, hform, hrest]
    cases o <;> rfl

theorem firstOf_all (levels : Nat) (c : Cursor) :
    firstOf (Form.all.map (Form.rule (below levels))) c = expression levels c := by
  cases levels <;> rfl

/-- A run comes to what `expression` says with the levels that are left at its depth. -/
theorem Call.Runs.outcome_eq (h : k.Runs limit depth) :
    k.outcome = expression (limit - depth) k.place := by
  induction h with
  | @intro depth k calls choice inner height_eq ih =>
    rw [← firstOf_all, choice.firstOf_eq ih]

/-! ## How many calls are open -/

theorem Form.Tries.depth_lt (h : f.Tries limit depth c calls o) (hk : k ∈ calls) :
    depth < limit := by
  cases h with
  | list starts deeper loop => exact deeper
  | quotation starts deeper place => exact deeper
  | _ => simp at hk

theorem Choice.depth_lt (h : Choice limit depth c fs calls o) (hk : k ∈ calls) :
    depth < limit := by
  induction h with
  | nil => simp at hk
  | decided form decides => exact form.depth_lt hk
  | declined form rest ih =>
    rcases List.mem_append.1 hk with hk | hk
    · exact form.depth_lt hk
    · exact ih hk

/-- Below the limit a call leaves room for one call more at each level, and at the limit
it makes none. -/
theorem Call.Runs.height_le (h : k.Runs limit depth) : k.height ≤ limit - depth + 1 := by
  induction h with
  | @intro depth k calls choice inner height_eq ih =>
    have hopen : mostOpen calls ≤ limit - depth := by
      refine mostOpen_le fun j hj => ?_
      have hlt := choice.depth_lt hj
      have hle := ih j hj
      omega
    omega

/-! ## Every call has a run -/

theorem exists_loop_runs
    (hcall : ∀ p, c.Reaches p → ∃ k : Call, k.Runs limit depth ∧ k.place = p) :
    ∃ (calls : List Call) (r : Except Stall Sequence), Loop [] c calls r ∧
      ∀ k ∈ calls, k.Runs limit depth := by
  refine exists_loop (expression_reads (limit - depth)) ?_ []
  intro p hp
  obtain ⟨k, hk, rfl⟩ := hcall p hp
  exact ⟨k, hk, rfl, hk.outcome_eq⟩

theorem exists_tries (limit depth : Nat) (c : Cursor)
    (hinner : ∀ p, c.Passes p → ∃ k : Call, k.Runs limit (depth + 1) ∧ k.place = p) (f : Form) :
    ∃ (calls : List Call) (o : Outcome (Node Nat)), f.Tries limit depth c calls o ∧
      ∀ k ∈ calls, k.Runs limit (depth + 1) := by
  cases f with
  | atom => exact ⟨[], _, .atom, by simp⟩
  | string => exact ⟨[], _, .string, by simp⟩
  | list =>
    by_cases hstarts : c.rest.head? = some '('
    · rcases Nat.lt_or_ge depth limit with hlt | hge
      · obtain ⟨cs, hcs⟩ := List.head?_eq_some_iff.1 hstarts
        have hover : c.Over ['('] ⟨c.offset + 1, cs⟩ := ⟨hcs, rfl⟩
        have hpass : c.Passes (Cursor.pastGap ⟨c.offset + 1, cs⟩) :=
          Cursor.Passes.trans_reaches ⟨_, by simp, hover⟩ (Cursor.pastGap_reaches _)
        obtain ⟨calls, r, hloop, hcalls⟩ := exists_loop_runs fun p hp =>
          hinner p (hpass.trans_reaches hp)
        exact ⟨calls, _, .list hover hlt hloop, hcalls⟩
      · exact ⟨[], _, .deepList hstarts hge, by simp⟩
    · exact ⟨[], _, .noList hstarts, by simp⟩
  | quotation =>
    have hfrom := markerToken_from c
    cases hmarker : markerToken c with
    | declined s => exact ⟨[], _, .noMarker hmarker, by simp⟩
    | failed s => exact absurd hmarker (markerToken_ne_failed c s)
    | matched k next =>
      rcases Nat.lt_or_ge depth limit with hlt | hge
      · rw [hmarker] at hfrom
        have hpass : c.Passes next.pastGap :=
          Cursor.Passes.trans_reaches hfrom (Cursor.pastGap_reaches next)
        obtain ⟨body, hbody, hplace⟩ := hinner next.pastGap hpass
        exact ⟨[body], _, .quotation hmarker hlt hplace, by simpa using hbody⟩
      · exact ⟨[], _, .deepMarker hmarker hge, by simp⟩

theorem exists_choice (limit depth : Nat) (c : Cursor)
    (hinner : ∀ p, c.Passes p → ∃ k : Call, k.Runs limit (depth + 1) ∧ k.place = p)
    (fs : List Form) :
    ∃ (calls : List Call) (o : Outcome (Node Nat)), Choice limit depth c fs calls o ∧
      ∀ k ∈ calls, k.Runs limit (depth + 1) := by
  induction fs with
  | nil => exact ⟨[], _, .nil, by simp⟩
  | cons f fs ih =>
    obtain ⟨calls, o, hform, hcalls⟩ := exists_tries limit depth c hinner f
    cases o with
    | declined s =>
      obtain ⟨calls', o', hrest, hcalls'⟩ := ih
      exact ⟨_, _, .declined hform hrest, List.forall_mem_append.2 ⟨hcalls, hcalls'⟩⟩
    | matched x next => exact ⟨calls, _, .decided hform (by simp), hcalls⟩
    | failed s => exact ⟨calls, _, .decided hform (by simp), hcalls⟩

/-- Whatever the limit and the depth, a call runs to its end. -/
theorem exists_runs (limit depth : Nat) (c : Cursor) :
    ∃ k : Call, k.Runs limit depth ∧ k.place = c := by
  -- the depth stays general, since it grows on the way in while the text gets less
  induction hn : c.rest.length using Nat.strongRecOn generalizing depth c with
  | ind n ih =>
    have hinner : ∀ p, c.Passes p → ∃ k : Call, k.Runs limit (depth + 1) ∧ k.place = p :=
      fun p hp => ih p.rest.length (hn ▸ hp.length_lt) (depth + 1) p rfl
    obtain ⟨calls, o, hchoice, hcalls⟩ := exists_choice limit depth c hinner Form.all
    exact ⟨⟨c, o, mostOpen calls + 1⟩, .intro hchoice hcalls rfl, rfl⟩

/-! ## A call has one run -/

/-- Calls from the two lists are the same if they start at the same place. -/
def Agree (calls calls' : List Call) : Prop :=
  ∀ k ∈ calls, ∀ k' ∈ calls', k'.place = k.place → k' = k

theorem Agree.of_subset {calls calls' inner inner' : List Call} (h : Agree calls calls')
    (h₁ : inner ⊆ calls) (h₂ : inner' ⊆ calls') : Agree inner inner' :=
  fun k hk k' hk' => h k (h₁ hk) k' (h₂ hk')

section Uniqueness

variable {done : List (Node Nat)} {calls' : List Call} {r r' : Except Stall Sequence}
  {o' : Outcome (Node Nat)} {k' : Call}

theorem Agree.outcome_eq {n n' : Nat}
    (h : Agree (⟨c, o, n⟩ :: calls) (⟨c, o', n'⟩ :: calls')) : o' = o ∧ n' = n := by
  have hfirst := h _ List.mem_cons_self _ List.mem_cons_self rfl
  simpa using hfirst

theorem Loop.unique (h : Loop done c calls r) (h' : Loop done c calls' r')
    (hagree : Agree calls calls') : calls' = calls ∧ r' = r := by
  induction h generalizing calls' r' with
  | declined =>
    cases h' with
    | declined =>
      obtain ⟨ho, rfl⟩ := hagree.outcome_eq
      obtain rfl := Outcome.declined.inj ho
      exact ⟨rfl, rfl⟩
    | _ => exact absurd hagree.outcome_eq.1 (by simp)
  | failed =>
    cases h' with
    | failed =>
      obtain ⟨ho, rfl⟩ := hagree.outcome_eq
      obtain rfl := Outcome.failed.inj ho
      exact ⟨rfl, rfl⟩
    | _ => exact absurd hagree.outcome_eq.1 (by simp)
  | matched rest ih =>
    cases h' with
    | matched rest' =>
      -- both loops go on from the place where their first call stopped
      obtain ⟨ho, rfl⟩ := hagree.outcome_eq
      obtain ⟨rfl, rfl⟩ := Outcome.matched.inj ho
      have hrest := hagree.of_subset (List.subset_cons_self _ _) (List.subset_cons_self _ _)
      obtain ⟨rfl, rfl⟩ := ih rest' hrest
      exact ⟨rfl, rfl⟩
    | _ => exact absurd hagree.outcome_eq.1 (by simp)

theorem Form.Tries.unique (h : f.Tries limit depth c calls o) (h' : f.Tries limit depth c calls' o')
    (hagree : Agree calls calls') : calls' = calls ∧ o' = o := by
  cases h with
  | atom => cases h'; exact ⟨rfl, rfl⟩
  | string => cases h'; exact ⟨rfl, rfl⟩
  | noList starts =>
    cases h' with
    | noList => exact ⟨rfl, rfl⟩
    | deepList starts' => exact absurd starts' starts
    | list starts' => exact absurd (by rw [starts'.1]; rfl) starts
  | deepList starts deep =>
    cases h' with
    | noList starts' => exact absurd starts starts'
    | deepList => exact ⟨rfl, rfl⟩
    | list _ deeper => exact absurd deeper (Nat.not_lt.2 deep)
  | list starts deeper loop =>
    cases h' with
    | noList starts' => exact absurd (by rw [starts.1]; rfl) starts'
    | deepList _ deep => exact absurd deeper (Nat.not_lt.2 deep)
    | list starts' _ loop' =>
      obtain rfl := starts'.unique starts
      obtain ⟨rfl, rfl⟩ := loop.unique loop' hagree
      exact ⟨rfl, rfl⟩
  | noMarker starts =>
    cases h' with
    | noMarker starts' =>
      obtain rfl := Outcome.declined.inj (starts.symm.trans starts')
      exact ⟨rfl, rfl⟩
    | deepMarker starts' => simp [starts] at starts'
    | quotation starts' => simp [starts] at starts'
  | deepMarker starts deep =>
    cases h' with
    | noMarker starts' => simp [starts] at starts'
    | deepMarker => exact ⟨rfl, rfl⟩
    | quotation _ deeper => exact absurd deeper (Nat.not_lt.2 deep)
  | quotation starts deeper place =>
    cases h' with
    | noMarker starts' => simp [starts] at starts'
    | deepMarker _ deep => exact absurd deeper (Nat.not_lt.2 deep)
    | quotation starts' _ place' =>
      obtain ⟨rfl, rfl⟩ := Outcome.matched.inj (starts.symm.trans starts')
      obtain rfl := hagree _ List.mem_cons_self _ List.mem_cons_self (place'.trans place.symm)
      exact ⟨rfl, rfl⟩

theorem Choice.unique (h : Choice limit depth c fs calls o) (h' : Choice limit depth c fs calls' o')
    (hagree : Agree calls calls') : calls' = calls ∧ o' = o := by
  induction h generalizing calls' o' with
  | nil => cases h'; exact ⟨rfl, rfl⟩
  | decided form decides =>
    cases h' with
    | decided form' => exact form.unique form' hagree
    | declined form' =>
      have hform := hagree.of_subset (List.Subset.refl _) (List.subset_append_left _ _)
      exact absurd (form.unique form' hform).2.symm (decides _)
  | declined form rest ih =>
    cases h' with
    | decided form' decides' =>
      have hform := hagree.of_subset (List.subset_append_left _ _) (List.Subset.refl _)
      exact absurd (form.unique form' hform).2 (decides' _)
    | declined form' rest' =>
      have hform := hagree.of_subset (List.subset_append_left _ _) (List.subset_append_left _ _)
      have hrest := hagree.of_subset (List.subset_append_right _ _) (List.subset_append_right _ _)
      obtain ⟨rfl, hs⟩ := form.unique form' hform
      obtain rfl := Outcome.declined.inj hs
      obtain ⟨rfl, rfl⟩ := ih rest' hrest
      exact ⟨rfl, rfl⟩

/-- A call has one run, so that what it comes to and how many calls it opens depend on its
place and its depth alone. -/
theorem Call.Runs.unique (h : k.Runs limit depth) (h' : k'.Runs limit depth)
    (hplace : k'.place = k.place) : k' = k := by
  induction h generalizing k' with
  | @intro depth k calls choice inner height_eq ih =>
    obtain ⟨choice', inner', height_eq'⟩ := h'
    rw [hplace] at choice'
    -- the inner calls of the two runs agree, by the induction on the tree of calls
    obtain ⟨rfl, houtcome⟩ := choice.unique choice' fun j hj j' hj' => ih j hj (inner' j' hj')
    obtain ⟨place, outcome, height⟩ := k
    obtain ⟨place', outcome', height'⟩ := k'
    obtain rfl : place' = place := hplace
    obtain rfl : outcome' = outcome := houtcome
    obtain rfl : height' = height := height_eq'.trans height_eq.symm
    rfl

theorem existsUnique_runs (limit depth : Nat) (c : Cursor) :
    ∃! k : Call, k.Runs limit depth ∧ k.place = c := by
  obtain ⟨k, hk, rfl⟩ := exists_runs limit depth c
  exact ⟨k, ⟨hk, rfl⟩, fun k' hk' => hk.unique hk'.1 hk'.2⟩

end Uniqueness

/-! ## Programs -/

/-- What a program is made of when the loop over its expressions is over. -/
def closeProgram : Except Stall Sequence → Except Stall (List (Node Nat))
  | .error s => .error s
  | .ok q =>
    if q.stop.rest.isEmpty then .ok q.nodes
    else if q.stop.offset < q.stall.place.offset then .error q.stall
    else .error ⟨q.stop, .strayContent⟩

/-- Reading the source as a program makes the calls, none of them inside another, and the
loop that makes them comes to the result. -/
structure ProgramRuns (o : Options) (source : List Char) (calls : List Call)
    (r : Except Stall Sequence) : Prop where
  loop : Loop [] (programStart o source) calls r
  runs : ∀ k ∈ calls, k.Runs o.maxDepth 0

theorem ProgramRuns.program_eq {o : Options} {source : List Char} {r : Except Stall Sequence}
    (h : ProgramRuns o source calls r) : program o source = closeProgram r := by
  have hcalls : ∀ k ∈ calls, k.outcome = expression o.maxDepth k.place :=
    fun k hk => (h.runs k hk).outcome_eq
  have hsequence : sequence (expression o.maxDepth) source [] (programStart o source) = r :=
    h.loop.sequence_eq (expression_reads _) hcalls (programStart_length_le o source)
  rw [← hsequence]
  rfl

theorem ProgramRuns.height_le {o : Options} {source : List Char} {r : Except Stall Sequence}
    (h : ProgramRuns o source calls r) : mostOpen calls ≤ o.maxDepth + 1 :=
  mostOpen_le fun k hk => (h.runs k hk).height_le

theorem existsUnique_programRuns (o : Options) (source : List Char) :
    ∃! run : List Call × Except Stall Sequence, ProgramRuns o source run.1 run.2 := by
  obtain ⟨calls, r, hloop, hcalls⟩ := exists_loop_runs fun p _ => exists_runs o.maxDepth 0 p
  refine ⟨(calls, r), ⟨hloop, hcalls⟩, ?_⟩
  rintro ⟨calls', r'⟩ ⟨hloop', hcalls'⟩
  have hagree : Agree calls calls' := fun k hk k' hk' => (hcalls k hk).unique (hcalls' k' hk')
  obtain ⟨rfl, rfl⟩ := hloop.unique hloop' hagree
  rfl

/-- What stops a program lies in its text. -/
theorem program_reaches {o : Options} {source : List Char} {s : Stall}
    (h : program o source = .error s) : (Cursor.atStart source).Reaches s.place := by
  have hstart := programStart_reaches o source
  have hsequence := sequence_reaches (expression_reads o.maxDepth) source [] (programStart o source)
  unfold program at h
  split at h
  · next t hfailed =>
    obtain rfl : t = s := Except.error.inj h
    rw [hfailed] at hsequence
    exact hstart.trans hsequence
  · next q hq =>
    rw [hq] at hsequence
    obtain ⟨hstop, hstall⟩ := hsequence
    split at h
    · simp at h
    · split at h
      · obtain rfl : q.stall = s := Except.error.inj h
        exact hstart.trans hstall
      · obtain rfl : ⟨q.stop, .strayContent⟩ = s := Except.error.inj h
        exact hstart.trans hstop

/-- Reading goes on at every turn, and no deeper than the limit.

Every rule that matches takes a character at least, and one that does not match stops in
the text it was given, as a program does.  Gaps are skipped without a failure, up to a
character with meaning.  The repetitions in gaps, atoms and strings come to an end without
ever being stuck, and the readers go by that end.  A call of the reader at any depth has a
run to its end and no other, and so has the loop over a program, with no more calls open
at a time than one for each level and one below the last. -/
theorem reading_progresses (o : Options) (source : List Char) :
    (∀ levels, (expression levels).Reads ∧ ∀ f : Form, (f.rule (below levels)).Reads) ∧
    (∀ s, program o source = .error s → (Cursor.atStart source).Reaches s.place) ∧
    (∀ c : Cursor, Settles gapPiece (fun _ _ => ()) () c (.ended () c.pastGap) ∧
      c.Reaches c.pastGap ∧ EndsGap c.pastGap.rest) ∧
    (∀ c, ∃ e, Settles atomPiece (fun done a => a :: done) [] c e ∧
      e.outcome closeAtom = some (atomToken c)) ∧
    (∀ c first : Cursor, c.Over ['"'] first →
      ∃ e, Settles stringPiece (fun done a => a :: done) [] first e ∧
        e.outcome closeString = some (stringToken c)) ∧
    (∀ depth c, ∃! k : Call, k.Runs o.maxDepth depth ∧ k.place = c) ∧
    (∀ depth k, Call.Runs o.maxDepth depth k →
      k.outcome = expression (o.maxDepth - depth) k.place ∧
        k.height ≤ o.maxDepth - depth + 1) ∧
    (∃! run : List Call × Except Stall Sequence, ProgramRuns o source run.1 run.2) ∧
    ∀ calls r, ProgramRuns o source calls r →
      program o source = closeProgram r ∧ mostOpen calls ≤ o.maxDepth + 1 := by
  refine ⟨?_, ?_, ?_, exists_settles_atom, ?_, ?_, ?_, existsUnique_programRuns o source, ?_⟩
  · exact fun levels => ⟨expression_reads levels, fun f => f.rule_reads below_reads⟩
  · exact fun s hs => program_reaches hs
  · exact fun c => ⟨settles_gap c, c.pastGap_reaches, c.endsGap_pastGap⟩
  · exact fun c first hquote => exists_settles_string hquote
  · exact fun depth c => existsUnique_runs o.maxDepth depth c
  · exact fun depth k hk => ⟨hk.outcome_eq, hk.height_le⟩
  · exact fun calls r hruns => ⟨hruns.program_eq, hruns.height_le⟩

/-- A list at the last level, behind a shebang line, with a quotation in it, and a string
that ends in an escape that is not known. -/
theorem reading_progresses_open :
    (∃ calls r, ProgramRuns ⟨1, true⟩ ['#', '!', '\n', '(', '\x27', '(', 'a'] calls r ∧
      closeProgram r = .error ⟨⟨4, ['\x27', '(', 'a']⟩, .tooDeep⟩ ∧ mostOpen calls ≤ 2) ∧
    Cursor.Over ⟨0, ['"', 'a', '\\', 'q']⟩ ['"'] ⟨1, ['a', '\\', 'q']⟩ ∧
    ∃ e, Settles stringPiece (fun done a => a :: done) [] ⟨1, ['a', '\\', 'q']⟩ e ∧
      e.outcome closeString = some (.failed ⟨⟨3, ['q']⟩, .unknownEscape⟩) := by
  have h := reading_progresses ⟨1, true⟩ ['#', '!', '\n', '(', '\x27', '(', 'a']
  obtain ⟨_, _, _, _, hstring, _, _, ⟨⟨calls, r⟩, hruns, _⟩, hall⟩ := h
  obtain ⟨hprogram, hheight⟩ := hall calls r hruns
  have hquote : Cursor.Over ⟨0, ['"', 'a', '\\', 'q']⟩ ['"'] ⟨1, ['a', '\\', 'q']⟩ := ⟨rfl, rfl⟩
  exact ⟨⟨calls, r, hruns, hprogram.symm, hheight⟩, hquote, hstring _ _ hquote⟩

end Grammar
end LispSyntax
