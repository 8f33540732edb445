/-
The brackets of a JSON text nest as its arrays and objects do.

The count leaves out whatever stands in strings.  So at each place in the text of a
derivation it has the number of arrays and objects that are open there, and at the end
it has found as many levels as the derivation has.
-/
import LispSyntax.Json.Nesting
import LispSyntax.Proofs.JsonDerivation
import LispSyntax.Proofs.JsonTokens
import Mathlib.Order.Bounds.Basic

namespace LispSyntax
namespace Json

/-! ## Open arrays and objects -/

mutual
/-- Where the arrays and objects of a value start and stop, if it starts at a place. -/
def Tree.ranges (start : Nat) : Tree → List (Nat × Nat)
  | .scalar _ => []
  | .empty kind sp => [(start, start + (Tree.empty kind sp).text.length)]
  | .full kind es => (start, start + (Tree.full kind es).text.length) :: es.ranges (start + 1)

def Entries.ranges (start : Nat) : Entries → List (Nat × Nat)
  | .last lead t _ => t.ranges (start + lead.text.length)
  | .cons lead t sp es => t.ranges (start + lead.text.length) ++
      es.ranges (start + lead.text.length + t.text.length + sp.length + 1)
end

/-- How many of the ranges have started and not stopped at a place. -/
def openCount (ranges : List (Nat × Nat)) (place : Nat) : Nat :=
  ranges.countP fun r => r.1 < place && place < r.2

/-- How many arrays and objects are open behind so many characters of the text. -/
def Derivation.openAt (d : Derivation) (place : Nat) : Nat :=
  openCount (d.tree.ranges d.before.length) place

theorem openCount_append (rs qs : List (Nat × Nat)) (place : Nat) :
    openCount (rs ++ qs) place = openCount rs place + openCount qs place :=
  List.countP_append

theorem openCount_of_le {rs : List (Nat × Nat)} {place : Nat} (h : ∀ r ∈ rs, place ≤ r.1) :
    openCount rs place = 0 := by
  refine List.countP_eq_zero.2 fun r hr => ?_
  simp [Nat.not_lt.2 (h r hr)]

theorem openCount_of_ge {rs : List (Nat × Nat)} {place : Nat} (h : ∀ r ∈ rs, r.2 ≤ place) :
    openCount rs place = 0 := by
  refine List.countP_eq_zero.2 fun r hr => ?_
  simp [Nat.not_lt.2 (h r hr)]

namespace BracketCount

/-! ## Steps of the count -/

theorem depth_le_deepest (s : BracketCount) (c : Char) (h : s.depth ≤ s.deepest) :
    (step s c).depth ≤ (step s c).deepest ∧ s.deepest ≤ (step s c).deepest := by
  unfold step
  split
  · exact ⟨h, Nat.le_refl _⟩
  · split
    · exact ⟨h, Nat.le_refl _⟩
    · split
      · exact ⟨h, Nat.le_refl _⟩
      · exact ⟨h, Nat.le_refl _⟩
  · split
    · exact ⟨h, Nat.le_refl _⟩
    · split
      · exact ⟨Nat.le_max_right _ _, Nat.le_max_left _ _⟩
      · split
        · exact ⟨Nat.le_trans (Nat.sub_le _ _) h, Nat.le_refl _⟩
        · exact ⟨h, Nat.le_refl _⟩

theorem foldl_depth_le (cs : List Char) {s : BracketCount} (h : s.depth ≤ s.deepest) :
    (cs.foldl step s).depth ≤ (cs.foldl step s).deepest ∧
      s.deepest ≤ (cs.foldl step s).deepest := by
  induction cs generalizing s with
  | nil => exact ⟨h, Nat.le_refl _⟩
  | cons c cs ih =>
    obtain ⟨hdepth, hdeepest⟩ := depth_le_deepest s c h
    obtain ⟨hrest, hmore⟩ := ih hdepth
    exact ⟨hrest, Nat.le_trans hdeepest hmore⟩

/-- No more brackets are open behind a part of the text than are ever counted. -/
theorem depth_le_bracketNesting (u z : List Char) :
    (u.foldl step start).depth ≤ bracketNesting (u ++ z) := by
  have hstart : start.depth ≤ start.deepest := Nat.le_refl 0
  obtain ⟨hdepth, _⟩ := foldl_depth_le u hstart
  obtain ⟨_, hdeepest⟩ := foldl_depth_le z hdepth
  rw [bracketNesting, List.foldl_append]
  exact Nat.le_trans hdepth hdeepest

theorem deepest_step (s : BracketCount) (c : Char) :
    (step s c).deepest = s.deepest ∨ (step s c).deepest = (step s c).depth := by
  unfold step
  split
  · exact Or.inl rfl
  · split
    · exact Or.inl rfl
    · split <;> exact Or.inl rfl
  · split
    · exact Or.inl rfl
    · split
      · exact (Nat.le_total (s.depth + 1) s.deepest).imp Nat.max_eq_left Nat.max_eq_right
      · split <;> exact Or.inl rfl

/-- So many brackets are open somewhere in the text. -/
theorem exists_depth_eq (cs : List Char) (s : BracketCount) :
    (cs.foldl step s).deepest = s.deepest ∨
      ∃ u w, cs = u ++ w ∧ (u.foldl step s).depth = (cs.foldl step s).deepest := by
  induction cs generalizing s with
  | nil => exact Or.inl rfl
  | cons c cs ih =>
    rcases ih (step s c) with hdeepest | ⟨u, w, rfl, hdepth⟩
    · rcases deepest_step s c with hsame | hnew
      · exact Or.inl (hdeepest.trans hsame)
      · exact Or.inr ⟨[c], cs, rfl, (hdeepest.trans hnew).symm⟩
    · exact Or.inr ⟨c :: u, w, rfl, hdepth⟩

theorem exists_depth_eq_bracketNesting (cs : List Char) :
    ∃ u w, cs = u ++ w ∧ (u.foldl step start).depth = bracketNesting cs := by
  rcases exists_depth_eq cs start with hdeepest | h
  · exact ⟨[], cs, rfl, hdeepest.symm⟩
  · exact h

/-! ## Texts that open nothing -/

/-- Nothing is opened or closed on the way through the text. -/
def Quiet (s : BracketCount) : List Char → Prop
  | [] => True
  | c :: cs => (step s c).depth = s.depth ∧ Quiet (step s c) cs

theorem Quiet.append {s : BracketCount} {cs ds : List Char} (hcs : Quiet s cs)
    (hds : Quiet (cs.foldl step s) ds) : Quiet s (cs ++ ds) := by
  induction cs generalizing s with
  | nil => exact hds
  | cons c cs ih => exact ⟨hcs.1, ih hcs.2 hds⟩

theorem Quiet.depth_eq {s : BracketCount} {u w : List Char} (h : Quiet s (u ++ w)) :
    (u.foldl step s).depth = s.depth := by
  induction u generalizing s with
  | nil => rfl
  | cons c u ih => exact (ih h.2).trans h.1

variable {d m : Nat}

/-- The character opens and closes nothing. -/
def isNeutral (c : Char) : Bool :=
  c != '"' && c != '[' && c != '\x7b' && c != ']' && c != '\x7d'

theorem step_neutral {c : Char} (h : isNeutral c = true) :
    step ⟨.outside, d, m⟩ c = ⟨.outside, d, m⟩ := by
  simp only [isNeutral, Bool.and_eq_true, bne_iff_ne] at h
  simp [step, h]

theorem foldl_neutral {cs : List Char} (h : ∀ c ∈ cs, isNeutral c = true) :
    cs.foldl step ⟨.outside, d, m⟩ = ⟨.outside, d, m⟩ ∧ Quiet ⟨.outside, d, m⟩ cs := by
  induction cs with
  | nil => exact ⟨rfl, trivial⟩
  | cons c cs ih =>
    obtain ⟨hc, hcs⟩ := List.forall_mem_cons.1 h
    rw [List.foldl_cons, Quiet, step_neutral hc]
    exact ⟨(ih hcs).1, rfl, (ih hcs).2⟩

theorem isNeutral_of_isSpace {c : Char} (h : isSpace c = true) : isNeutral c = true := by
  rcases eq_of_isSpace h with rfl | rfl | rfl | rfl <;> decide

theorem isNeutral_of_isDigit {c : Char} (h : c.isDigit = true) : isNeutral c = true := by
  simp [isNeutral, ne_of_isDigit h]

theorem step_inside {c : Char} (hslash : c ≠ '\\') (hquote : c ≠ '"') :
    step ⟨.inside, d, m⟩ c = ⟨.inside, d, m⟩ := by
  simp [step, hslash, hquote]

theorem step_hexDigit {c : Char} {n : Nat} (h : hexValue? c = some n) :
    step ⟨.inside, d, m⟩ c = ⟨.inside, d, m⟩ := by
  refine step_inside ?_ ?_
  · rintro rfl
    simp [hexValue?] at h
  · rintro rfl
    simp [hexValue?] at h

theorem foldl_codeUnit {u : CodeUnit} (h : u.Legal) :
    u.text.foldl step ⟨.inside, d, m⟩ = ⟨.inside, d, m⟩ ∧ Quiet ⟨.inside, d, m⟩ u.text := by
  obtain ⟨n, hn⟩ := Option.isSome_iff_exists.1 h
  simp only [CodeUnit.value?] at hn
  unfold codeUnit? at hn
  split at hn
  · next ha hb hc hd =>
    simp [CodeUnit.text, Quiet, step_hexDigit ha, step_hexDigit hb, step_hexDigit hc,
      step_hexDigit hd]
  · simp at hn

/-- Nothing in a string counts. -/
theorem foldl_letter {l : Letter} (h : l.Legal) :
    l.text.foldl step ⟨.inside, d, m⟩ = ⟨.inside, d, m⟩ ∧ Quiet ⟨.inside, d, m⟩ l.text := by
  have hslash : step ⟨.inside, d, m⟩ '\\' = ⟨.escaped, d, m⟩ := rfl
  have hescaped : ∀ c, step ⟨.escaped, d, m⟩ c = ⟨.inside, d, m⟩ := fun _ => rfl
  cases l with
  | plain c =>
    obtain ⟨hquote, hslash, _⟩ := h
    simp [Letter.text, Quiet, step_inside hslash hquote]
  | short c => simp [Letter.text, Quiet, hslash, hescaped]
  | code u =>
    have hunit := foldl_codeUnit (d := d) (m := m) h
    simp [Letter.text, Quiet, hslash, hescaped, hunit]
  | pair u w =>
    have hfirst := foldl_codeUnit (d := d) (m := m) h.1
    have hsecond := foldl_codeUnit (d := d) (m := m) h.2
    have hrest : Quiet ⟨.inside, d, m⟩ ('\\' :: 'u' :: w.text) := by
      simp [Quiet, hslash, hescaped, hsecond]
    have hboth := hfirst.2.append (hfirst.1.symm ▸ hrest)
    simp [Letter.text, Quiet, hslash, hescaped, hfirst.1, hsecond.1, hboth]

theorem foldl_quoted {ls : List Letter} (h : ∀ l ∈ ls, l.Legal) :
    (quoted ls).foldl step ⟨.outside, d, m⟩ = ⟨.outside, d, m⟩ ∧
      Quiet ⟨.outside, d, m⟩ (quoted ls) := by
  have hletters : (ls.flatMap Letter.text).foldl step ⟨.inside, d, m⟩ = ⟨.inside, d, m⟩ ∧
      Quiet ⟨.inside, d, m⟩ (ls.flatMap Letter.text) := by
    induction ls with
    | nil => exact ⟨rfl, trivial⟩
    | cons l ls ih =>
      obtain ⟨hl, hls⟩ := List.forall_mem_cons.1 h
      obtain ⟨hfold, hquiet⟩ := foldl_letter (d := d) (m := m) hl
      obtain ⟨hfold', hquiet'⟩ := ih hls
      rw [List.flatMap_cons, List.foldl_append, hfold]
      exact ⟨hfold', hquiet.append (hfold.symm ▸ hquiet')⟩
  obtain ⟨hfold, hquiet⟩ := hletters
  have hopen : step ⟨.outside, d, m⟩ '"' = ⟨.inside, d, m⟩ := rfl
  have hclose : step ⟨.inside, d, m⟩ '"' = ⟨.outside, d, m⟩ := rfl
  rw [quoted, List.foldl_cons, hopen, List.foldl_append, hfold]
  refine ⟨rfl, rfl, hopen ▸ hquiet.append (hfold.symm ▸ ?_)⟩
  exact ⟨rfl, trivial⟩

/-! ## Texts of derivations -/

/-- Wherever the text is met outside of strings, the count has found all its levels
behind it, and behind each part of it has counted the ranges that are open. -/
structure Scans (start : Nat) (text : List Char) (ranges : List (Nat × Nat)) (levels : Nat) :
    Prop where
  within : ∀ r ∈ ranges, start ≤ r.1 ∧ r.2 ≤ start + text.length
  behind : ∀ {d m : Nat}, d ≤ m →
    text.foldl step ⟨.outside, d, m⟩ = ⟨.outside, d, max m (d + levels)⟩
  depth : ∀ {d m : Nat} (u w : List Char), d ≤ m → text = u ++ w →
    (u.foldl step ⟨.outside, d, m⟩).depth = d + openCount ranges (start + u.length)

namespace Scans

variable {start : Nat} {cs ds : List Char} {rs qs : List (Nat × Nat)} {n k : Nat}

theorem quiet (start : Nat) (h : ∀ d m, cs.foldl step ⟨.outside, d, m⟩ = ⟨.outside, d, m⟩ ∧
    Quiet ⟨.outside, d, m⟩ cs) : Scans start cs [] 0 where
  within := by simp
  behind {d m} hm := by
    rw [Nat.add_zero, Nat.max_eq_left hm]
    exact (h d m).1
  depth {d m} u w _ hcs := by
    have hquiet := (h d m).2
    rw [hcs] at hquiet
    exact hquiet.depth_eq

theorem neutral (start : Nat) (h : ∀ c ∈ cs, isNeutral c = true) : Scans start cs [] 0 :=
  quiet start fun _ _ => foldl_neutral h

theorem append (hcs : Scans start cs rs n) (hds : Scans (start + cs.length) ds qs k) :
    Scans start (cs ++ ds) (rs ++ qs) (max n k) where
  within := by
    intro r hr
    rw [List.length_append]
    rcases List.mem_append.1 hr with hr | hr
    · have hwithin := hcs.within r hr
      omega
    · have hwithin := hds.within r hr
      omega
  behind {d m} hm := by
    rw [List.foldl_append, hcs.behind hm, hds.behind (Nat.le_trans hm (Nat.le_max_left _ _))]
    congr 1
    omega
  depth {d m} u w hm hsplit := by
    rw [openCount_append]
    rcases List.append_eq_append_iff.1 hsplit with ⟨v, rfl, rfl⟩ | ⟨v, rfl, rfl⟩
    · -- the place is behind the first text, whose ranges have all stopped
      have hstopped : openCount rs (start + (cs ++ v).length) = 0 :=
        openCount_of_ge fun r hr => by
          have hwithin := hcs.within r hr
          rw [List.length_append]
          omega
      rw [List.foldl_append, hcs.behind hm,
        hds.depth v w (Nat.le_trans hm (Nat.le_max_left _ _)) rfl, hstopped, List.length_append,
        Nat.zero_add, Nat.add_assoc]
    · -- the place is in the first text, and no range of the second has started
      have hlater : openCount qs (start + u.length) = 0 :=
        openCount_of_le fun r hr => by
          have hwithin := hds.within r hr
          rw [List.length_append] at hwithin
          omega
      rw [hcs.depth u v hm rfl, hlater, Nat.add_zero]

theorem step_opening (kind : Container) (d m : Nat) :
    step ⟨.outside, d, m⟩ kind.opening = ⟨.outside, d + 1, max m (d + 1)⟩ := by
  cases kind <;> rfl

theorem step_closing (kind : Container) (d m : Nat) :
    step ⟨.outside, d + 1, m⟩ kind.closing = ⟨.outside, d, m⟩ := by
  cases kind <;> rfl

/-- Brackets add a range and a level. -/
theorem bracket (kind : Container) (hcs : Scans (start + 1) cs rs n) :
    Scans start (kind.opening :: (cs ++ [kind.closing]))
      ((start, start + (kind.opening :: (cs ++ [kind.closing])).length) :: rs) (n + 1) where
  within := by
    refine List.forall_mem_cons.2 ⟨⟨Nat.le_refl _, Nat.le_refl _⟩, fun r hr => ?_⟩
    have hwithin := hcs.within r hr
    simp only [List.length_cons, List.length_append, List.length_nil]
    omega
  behind {d m} hm := by
    rw [List.foldl_cons, step_opening, List.foldl_append, hcs.behind (Nat.le_max_right _ _),
      List.foldl_cons, step_closing, List.foldl_nil]
    congr 1
    omega
  depth {d m} u w hm hsplit := by
    cases u with
    | nil =>
      have hlater : openCount ((start, start + (kind.opening :: (cs ++ [kind.closing])).length) ::
          rs) start = 0 := by
        refine openCount_of_le (List.forall_mem_cons.2 ⟨Nat.le_refl _, fun r hr => ?_⟩)
        exact Nat.le_of_succ_le (hcs.within r hr).1
      rw [List.length_nil, Nat.add_zero, hlater]
      rfl
    | cons c u =>
      obtain ⟨rfl, htail⟩ := List.cons.inj hsplit
      rcases List.eq_nil_or_concat w with rfl | ⟨v, b, rfl⟩
      · -- behind the closing bracket everything has stopped
        obtain rfl : cs ++ [kind.closing] = u := by simpa using htail
        have hstopped : openCount ((start, start +
            (kind.opening :: (cs ++ [kind.closing])).length) :: rs)
            (start + (kind.opening :: (cs ++ [kind.closing])).length) = 0 := by
          refine openCount_of_ge (List.forall_mem_cons.2 ⟨Nat.le_refl _, fun r hr => ?_⟩)
          have hwithin := hcs.within r hr
          simp only [List.length_cons, List.length_append, List.length_nil]
          omega
        rw [hstopped, List.foldl_cons, step_opening, List.foldl_append,
          hcs.behind (Nat.le_max_right _ _), List.foldl_cons, step_closing]
        rfl
      · have hlast : cs ++ [kind.closing] = (u ++ v) ++ [b] := by simpa using htail
        obtain ⟨rfl, _⟩ := List.append_inj' hlast rfl
        have hopen : openCount ((start, start +
            (kind.opening :: (u ++ v ++ [kind.closing])).length) :: rs)
            (start + (kind.opening :: u).length) = openCount rs (start + 1 + u.length) + 1 := by
          have hplace : start + (kind.opening :: u).length = start + 1 + u.length := by
            rw [List.length_cons]
            omega
          rw [hplace]
          refine List.countP_cons_of_pos ?_
          simp only [List.length_cons, List.length_append, List.length_nil, Bool.and_eq_true,
            decide_eq_true_eq]
          omega
        rw [hopen, List.foldl_cons, step_opening, hcs.depth u v (Nat.le_max_right _ _) rfl]
        omega

end Scans

theorem scans_spaces (start : Nat) {sp : List Char} (h : Spaces sp) : Scans start sp [] 0 :=
  Scans.neutral start fun c hc => isNeutral_of_isSpace (h c hc)

theorem scans_lead (start : Nat) {kind : Container} {lead : Lead} (h : lead.Legal kind) :
    Scans start lead.text [] 0 := by
  cases kind with
  | array =>
    cases lead with
    | item sp => exact scans_spaces start h
    | member sp name before after => exact h.elim
  | object =>
    cases lead with
    | item sp => exact h.elim
    | member sp name before after =>
      obtain ⟨hsp, hname, hbefore, hafter⟩ := h
      have hcolon : ∀ start, Scans start (':' :: after) [] 0 := fun start =>
        Scans.neutral start (List.forall_mem_cons.2 ⟨rfl, fun c hc =>
          isNeutral_of_isSpace (hafter c hc)⟩)
      exact (scans_spaces start hsp).append ((Scans.quiet _ fun _ _ => foldl_quoted hname).append
        ((scans_spaces _ hbefore).append (hcolon _)))

theorem isNeutral_numeral {m : Numeral} (h : m.Legal) : ∀ c ∈ m.text, isNeutral c = true := by
  obtain ⟨hwhole, _, hfraction, hexponent⟩ := h
  have hsign : ∀ c ∈ (if m.negative then ['-'] else []), isNeutral c = true := by
    cases m.negative <;> simp [isNeutral]
  have hplaces : ∀ c ∈ fractionText m.fraction, isNeutral c = true := by
    cases hf : m.fraction with
    | none => simp [fractionText]
    | some ds =>
      refine List.forall_mem_cons.2 ⟨rfl, fun c hc => ?_⟩
      exact isNeutral_of_isDigit ((hfraction ds hf).2 c hc)
  have hscale : ∀ c ∈ exponentText m.exponent, isNeutral c = true := by
    cases he : m.exponent with
    | none => simp [exponentText]
    | some e =>
      obtain ⟨hmark, hsign, hdigits⟩ := hexponent e he
      refine List.forall_mem_cons.2 ⟨?_, fun c hc => ?_⟩
      · rcases hmark with hmark | hmark <;> rw [hmark] <;> rfl
      · rcases List.mem_append.1 hc with hc | hc
        · rcases hsign c (by simpa using hc) with rfl | rfl <;> rfl
        · exact isNeutral_of_isDigit (hdigits.2 c hc)
  intro c hc
  rcases List.mem_append.1 hc with hc | hc
  · exact hsign c hc
  · rcases List.mem_append.1 hc with hc | hc
    · exact isNeutral_of_isDigit (hwhole.2 c hc)
    · rcases List.mem_append.1 hc with hc | hc
      · exact hplaces c hc
      · exact hscale c hc

theorem scans_comma (start : Nat) : Scans start [','] [] 0 :=
  Scans.neutral start (List.all_eq_true.1 rfl)

theorem scans_scalar (start : Nat) {s : Scalar} (h : s.Legal) : Scans start s.text [] 0 := by
  cases s with
  | null => exact Scans.neutral start (List.all_eq_true.1 rfl)
  | bool b =>
    cases b with
    | true => exact Scans.neutral start (List.all_eq_true.1 rfl)
    | false => exact Scans.neutral start (List.all_eq_true.1 rfl)
  | number m => exact Scans.neutral start (isNeutral_numeral h)
  | string ls => exact Scans.quiet start fun _ _ => foldl_quoted h

mutual
/-- The text of a derivation opens what the derivation holds. -/
theorem scans_tree : (t : Tree) → t.Legal → (start : Nat) →
    Scans start t.text (t.ranges start) t.levels
  | .scalar s, h, start => by
    rw [Tree.ranges, Tree.text, Tree.levels]
    exact scans_scalar start h
  | .empty kind sp, h, start => by
    rw [Tree.ranges, Tree.text, Tree.levels]
    exact (scans_spaces (start + 1) h).bracket kind
  | .full kind es, h, start => by
    rw [Tree.ranges, Tree.text, Tree.levels]
    exact (scans_entries es h (start + 1)).bracket kind

theorem scans_entries {kind : Container} : (es : Entries) → es.Legal kind → (start : Nat) →
    Scans start es.text (es.ranges start) es.levels
  | .last lead t sp, ⟨hlead, ht, hsp⟩, start => by
    have hvalue := (scans_tree t ht (start + lead.text.length)).append (scans_spaces _ hsp)
    have hscans := (scans_lead start hlead).append hvalue
    simpa [Entries.ranges, Entries.text, Entries.levels] using hscans
  | .cons lead t sp es, ⟨hlead, ht, hsp, hes⟩, start => by
    have hrest := (scans_comma (start + lead.text.length + t.text.length + sp.length)).append
      (scans_entries es hes _)
    have hvalue := (scans_tree t ht (start + lead.text.length)).append
      ((scans_spaces _ hsp).append hrest)
    have hscans := (scans_lead start hlead).append hvalue
    simpa [Entries.ranges, Entries.text, Entries.levels] using hscans
end

end BracketCount

namespace Derivation

open BracketCount

variable {d : Derivation}

theorem scans (h : d.Legal) :
    Scans 0 d.text (d.tree.ranges d.before.length) d.tree.levels := by
  obtain ⟨hbefore, htree, hafter⟩ := h
  have hscans := (scans_spaces 0 hbefore).append
    ((scans_tree d.tree htree (0 + d.before.length)).append (scans_spaces _ hafter))
  simpa [Derivation.text] using hscans

/-- Behind each part of a text as many brackets are counted as arrays and objects are
open. -/
theorem depth_eq_openAt (h : d.Legal) {u w : List Char} (hsplit : d.text = u ++ w) :
    (u.foldl step BracketCount.start).depth = d.openAt u.length := by
  have hdepth := (scans h).depth u w (Nat.le_refl 0) hsplit
  rwa [Nat.zero_add, Nat.zero_add] at hdepth

theorem bracketNesting_text (h : d.Legal) : bracketNesting d.text = d.tree.levels := by
  rw [bracketNesting, BracketCount.start, (scans h).behind (Nat.le_refl 0)]
  simp

/-- The most arrays and objects that are open at once are as many as the brackets nest. -/
theorem isGreatest_bracketNesting (h : d.Legal) :
    IsGreatest (Set.range d.openAt) (bracketNesting d.text) := by
  constructor
  · obtain ⟨u, w, hsplit, hdepth⟩ := exists_depth_eq_bracketNesting d.text
    exact ⟨u.length, by rw [← depth_eq_openAt h hsplit, hdepth]⟩
  · rintro _ ⟨place, rfl⟩
    rcases Nat.le_total place d.text.length with hplace | hplace
    · have hsplit := (List.take_append_drop place d.text).symm
      have hdepth := depth_le_bracketNesting (d.text.take place) (d.text.drop place)
      rwa [depth_eq_openAt h hsplit, List.length_take_of_le hplace, List.take_append_drop] at hdepth
    · -- no range goes on behind the text
      have hnone : d.openAt place = 0 := openCount_of_ge fun r hr => by
        have hwithin := (scans h).within r hr
        omega
      rw [hnone]
      exact Nat.zero_le _

end Derivation

end Json
end LispSyntax
