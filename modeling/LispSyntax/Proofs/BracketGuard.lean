/-
The guard on the depth of a JSON text.

A text is not read if its brackets nest too deep, and this is all that bounds the
recursion of the reader.  `readOver` is the reader that may do anything at all where it
would enter one array or object more than allowed.  On a text that passes the guard it
makes no difference what it does there, whether or not the text is well formed: what has
been read up to any place is derived, so that the count of brackets at that place is the
number of arrays and objects that have been entered.
-/
import LispSyntax.Document.Decode
import LispSyntax.Proofs.JsonNesting
import LispSyntax.Proofs.JsonReading

namespace LispSyntax
namespace Json

/-! ## Readers without a limit -/

/-- An array or object starts the text, behind spaces. -/
def isOpening (cs : List Char) : Bool :=
  (skipSpace cs).head? = some '[' || (skipSpace cs).head? = some '\x7b'

/-- Reads a value.  Where arrays and objects nest deeper than `levels`, what they are
read as is left to `beyond`. -/
def valueOver (beyond : Rule Json) (levels : Nat) : Rule Json := fun cs =>
  match levels with
  | 0 => if isOpening cs then beyond cs else valueRule none cs
  | levels + 1 => valueRule (some fun ds => valueOver beyond levels ds) cs

/-- The value that a whole text stands for, where arrays and objects that nest deeper
than `levels` are left to `beyond`. -/
def parseOver? (beyond : Rule Json) (levels : Nat) (cs : List Char) : Option Json :=
  match valueOver beyond levels cs with
  | some (v, rest) => if (skipSpace rest).isEmpty then some v else none
  | none => none

theorem valueRule_of_not_opening {cs : List Char} (h : isOpening cs = false)
    (deeper deeper' : Option (Rule Json)) : valueRule deeper cs = valueRule deeper' cs := by
  unfold valueRule
  split
  · rfl
  · rfl
  · rfl
  · rfl
  · next hcs => simp [isOpening, hcs] at h
  · next hcs => simp [isOpening, hcs] at h
  · rfl

theorem exists_opening {cs : List Char} (h : isOpening cs = true) :
    ∃ sp kind ds, Spaces sp ∧ cs = sp ++ Container.opening kind :: ds := by
  obtain ⟨sp, hsp, hcs⟩ := skipSpace_split cs
  rcases hskip : skipSpace cs with _ | ⟨c, ds⟩
  · simp [isOpening, hskip] at h
  · rw [hskip] at hcs
    simp only [isOpening, hskip, List.head?_cons, Option.some.injEq, Bool.or_eq_true,
      decide_eq_true_eq] at h
    rcases h with rfl | rfl
    · exact ⟨sp, .array, ds, hsp, hcs⟩
    · exact ⟨sp, .object, ds, hsp, hcs⟩

/-! ## Texts within the limit -/

open BracketCount

/-- Met with so many brackets open, the text never has more of them open than the
limit. -/
def Within (limit depth : Nat) (cs : List Char) : Prop :=
  ∃ m, depth ≤ m ∧ (cs.foldl step ⟨.outside, depth, m⟩).deepest ≤ limit

section Agreement

variable {limit depth n : Nat} {rule rule' : Rule Json} {kind : Container}

/-- A text is within the limit behind whatever leaves the count as it was. -/
theorem Within.behind {start k : Nat} {text rest : List Char} {ranges : List (Nat × Nat)}
    (hscans : Scans start text ranges k) (h : Within limit depth (text ++ rest)) :
    Within limit depth rest := by
  obtain ⟨m, hm, hdeepest⟩ := h
  rw [List.foldl_append, hscans.behind hm] at hdeepest
  exact ⟨_, Nat.le_trans hm (Nat.le_max_left _ _), hdeepest⟩

theorem Within.entered {cs : List Char} (h : Within limit depth (kind.opening :: cs)) :
    Within limit (depth + 1) cs ∧ depth + 1 ≤ limit := by
  obtain ⟨m, hm, hdeepest⟩ := h
  rw [List.foldl_cons, Scans.step_opening] at hdeepest
  have hopen : (BracketCount.mk .outside (depth + 1) (max m (depth + 1))).depth ≤
      max m (depth + 1) := Nat.le_max_right _ _
  have hmore := (foldl_depth_le cs hopen).2
  exact ⟨⟨_, Nat.le_max_right _ _, hdeepest⟩,
    Nat.le_trans (Nat.le_max_right _ _) (Nat.le_trans hmore hdeepest)⟩

/-- The rules read the same in front of every text that is within the limit. -/
def Agrees (limit depth : Nat) (rule rule' : Rule Json) : Prop :=
  ∀ cs, Within limit depth cs → rule cs = rule' cs

theorem elementRule_agrees (hagrees : Agrees limit depth rule rule') {cs : List Char}
    (h : Within limit depth cs) : elementRule rule kind cs = elementRule rule' kind cs := by
  cases kind with
  | array => exact hagrees cs h
  | object =>
    simp only [elementRule]
    obtain ⟨sp, hsp, hcs⟩ := skipSpace_split cs
    unfold memberRule
    rcases hname : stringRule (skipSpace cs) with _ | ⟨name, ds⟩
    · rfl
    · obtain ⟨ls, hls, _, hquoted⟩ := stringRule_sound hname
      obtain ⟨sp', hsp', hds⟩ := skipSpace_split ds
      rcases hskip : skipSpace ds with _ | ⟨c, es⟩
      · simp [hskip]
      · by_cases hcolon : c = ':'
        · -- what leads to the value is all that has been read
          have hlead : Lead.Legal .object (.member sp ls sp' []) :=
            ⟨hsp, hls, hsp', fun c hc => absurd hc (by simp)⟩
          have htext : cs = (Lead.member sp ls sp' []).text ++ es := by
            rw [hcs, hquoted, hds, hskip, hcolon]
            simp [Lead.text]
          have hvalue := hagrees es ((htext ▸ h).behind (scans_lead 0 hlead))
          simp [hskip, hcolon, hvalue]
        · simp [hskip, hcolon]

theorem elementsRest_agrees (hagrees : Agrees limit depth rule rule') (hderives : Derives n rule')
    (bound : List Char) (done : List kind.Element) {cs : List Char} (h : Within limit depth cs) :
    elementsRest rule kind bound done cs = elementsRest rule' kind bound done cs := by
  unfold elementsRest
  rw [elementRule_agrees hagrees h]
  rcases helement : elementRule rule' kind cs with _ | ⟨x, ds⟩
  · rfl
  · obtain ⟨lead, t, hlead, ht, _, _, rfl⟩ := elementRule_sound hderives helement
    obtain ⟨sp, hsp, hds⟩ := skipSpace_split ds
    have hbehind := (h.behind (scans_lead 0 hlead)).behind (scans_tree t ht 0)
    rcases hskip : skipSpace ds with _ | ⟨c, es⟩
    · simp [hskip]
    · by_cases hcomma : c = ','
      · cases bound with
        | nil => simp [hskip]
        | cons b bound =>
          rw [hds, hskip, hcomma] at hbehind
          have hrest : Within limit depth es :=
            (hbehind.behind (scans_spaces 0 hsp)).behind (scans_comma 0)
          simp [hskip, elementsRest_agrees hagrees hderives bound (x :: done) hrest]
      · simp [hskip, hcomma]
termination_by bound.length

theorem containerRule_agrees (hagrees : Agrees limit depth rule rule')
    (hderives : Derives n rule') {cs : List Char} (h : Within limit depth cs) :
    containerRule rule kind cs = containerRule rule' kind cs := by
  obtain ⟨sp, hsp, hcs⟩ := skipSpace_split cs
  have hskipped : Within limit depth (skipSpace cs) := (hcs ▸ h).behind (scans_spaces 0 hsp)
  have hrest : ∀ bound, elementsRest rule kind bound [] (skipSpace cs) =
      elementsRest rule' kind bound [] (skipSpace cs) :=
    fun bound => elementsRest_agrees hagrees hderives bound [] hskipped
  unfold containerRule
  rcases hskip : skipSpace cs with _ | ⟨c, ds⟩
  · rw [hskip] at hrest
    exact hrest []
  · rw [hskip] at hrest
    simp [hrest]

theorem valueRule_agrees (hagrees : Agrees limit (depth + 1) rule rule')
    (hderives : Derives n rule') :
    Agrees limit depth (valueRule (some rule)) (valueRule (some rule')) := by
  intro cs h
  by_cases hopening : isOpening cs = true
  · obtain ⟨sp, kind, ds, hsp, rfl⟩ := exists_opening hopening
    obtain ⟨hentered, _⟩ := (h.behind (scans_spaces 0 hsp)).entered
    rw [valueRule_skips _ sp _ hsp, valueRule_skips _ sp _ hsp, valueRule_opening,
      valueRule_opening, Option.bind_some, Option.bind_some,
      containerRule_agrees hagrees hderives hentered]
  · exact valueRule_of_not_opening (by simpa using hopening) _ _

/-- Within the limit, nothing is ever left to the rule beyond it. -/
theorem valueOver_agrees (beyond : Rule Json) (levels : Nat) :
    ∀ depth, depth + levels = limit →
      Agrees limit depth (valueOver beyond levels) (value levels) := by
  induction levels with
  | zero =>
    intro depth hdepth cs h
    by_cases hopening : isOpening cs = true
    · obtain ⟨sp, kind, ds, hsp, rfl⟩ := exists_opening hopening
      obtain ⟨_, hlimit⟩ := (h.behind (scans_spaces 0 hsp)).entered
      omega
    · simp [valueOver, value, hopening]
  | succ levels ih =>
    intro depth hdepth
    exact valueRule_agrees (ih (depth + 1) (by omega)) (value_derives levels)

end Agreement

theorem parseOver?_eq_parse? (beyond : Rule Json) {limit : Nat} {cs : List Char}
    (h : bracketNesting cs ≤ limit) : parseOver? beyond limit cs = parse? limit cs := by
  have hread := valueOver_agrees beyond limit 0 (Nat.zero_add limit) cs ⟨0, Nat.le_refl 0, h⟩
  cases hvalue : value limit cs <;> simp only [parseOver?, parse?, hread, hvalue]

end Json

namespace Document

open Json

/-- The guard is exact on well-formed texts, and safe on all.  On a text of the grammar it
counts the most arrays and objects that are open at once, and on any text at least as
many as are open behind a part of it with which some text of the grammar begins.  So the
reader never goes beyond the limit, and a well-formed text is decoded as its value
exactly if it is within the limit. -/
theorem decodeText_guarded (source : String) :
    (∀ d : Derivation, d.Legal → d.text = source.toList →
      IsGreatest (Set.range d.openAt) (bracketNesting source.toList)) ∧
    (∀ (u w z : List Char) (d : Derivation), source.toList = u ++ z → d.Legal → d.text = u ++ w →
      d.openAt u.length ≤ bracketNesting source.toList) ∧
    (∀ beyond : Rule Json, decodeText source =
      if 520 < bracketNesting source.toList then .error .tooDeep
      else
        match parseOver? beyond 520 source.toList with
        | none => .error .malformed
        | some v => decode v) ∧
    ∀ (d : Derivation) (v : Json), d.Legal → d.text = source.toList → d.value? = some v →
      decodeText source =
        if bracketNesting source.toList ≤ 520 then decode v else .error .tooDeep := by
  have hbrackets : maxBrackets = 520 := rfl
  refine ⟨?_, ?_, ?_, ?_⟩
  · rintro d hd htext
    rw [← htext]
    exact d.isGreatest_bracketNesting hd
  · rintro u w z d hsource hd htext
    rw [hsource, ← d.depth_eq_openAt hd htext]
    exact BracketCount.depth_le_bracketNesting u z
  · intro beyond
    rw [decodeText, hbrackets]
    split
    · rfl
    · next hlimit =>
      have hparse := parseOver?_eq_parse? beyond (Nat.le_of_not_lt hlimit)
      cases hread : parse? 520 source.toList <;> simp only [hparse, hread]
  · intro d v hd htext hvalue
    rw [decodeText, hbrackets]
    by_cases hlimit : bracketNesting source.toList ≤ 520
    · have hlevels : d.tree.levels ≤ 520 := by rwa [← d.bracketNesting_text hd, htext]
      rw [if_neg (Nat.not_lt.2 hlimit), if_pos hlimit,
        parse?_eq_some_iff.2 ⟨d, hd, htext, hvalue, hlevels⟩]
    · rw [if_pos (Nat.lt_of_not_le hlimit), if_neg hlimit]

/-- Two brackets are open behind the second character, a third is open later on, and a
fourth stands in a string behind an escaped quotation mark. -/
theorem decodeText_guarded_string : ∃ (source : String) (d : Derivation) (v : Json),
    d.Legal ∧ d.text = source.toList ∧ d.value? = some v ∧
    IsGreatest (Set.range d.openAt) 3 ∧ d.openAt 2 = 2 ∧
    d.openAt 2 ≤ bracketNesting source.toList ∧ decodeText source = decode v ∧
    decode v = .error (.shape .location (.item .root 0)) := by
  let source : String := "[\x7b\"a\\\"[\": []\x7d]"
  let d : Derivation := ⟨[], .full .array (.last (.item []) (.full .object (.last
    (.member [] [.plain 'a', .short '"', .plain '['] [] [' ']) (.empty .array []) [])) []), []⟩
  have hlegal : d.Legal := by
    simp [d, Derivation.Legal, Tree.Legal, Entries.Legal, Lead.Legal, Letter.Legal, Spaces,
      isSpace, unescape?]
  have htext : d.text = source.toList := by decide +kernel
  have hsplit : source.toList = ['[', '\x7b'] ++ source.toList.drop 2 := by decide +kernel
  have hvalue : d.value? = some (.array [.object [("a\"[", .array [])]]) := by rfl
  have hnesting : bracketNesting source.toList = 3 := by decide +kernel
  obtain ⟨hexact, hprefix, _, hdecode⟩ := decodeText_guarded source
  have hgreatest := hexact d hlegal htext
  have hopen := hprefix ['[', '\x7b'] _ _ d hsplit hlegal (htext.trans hsplit)
  have hread := hdecode d _ hlegal htext hvalue
  rw [hnesting] at hgreatest hread
  exact ⟨source, d, _, hlegal, htext, hvalue, hgreatest, by decide +kernel, hopen, hread, rfl⟩

end Document
end LispSyntax
