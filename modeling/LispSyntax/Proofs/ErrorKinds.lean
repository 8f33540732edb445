/-
What each kind of error means.

An error names its kind and what was missing.  Seven pairs of the two occur, and each
says something of the text in front of the error and of the next character that can be
checked without the reader: `Defect.Holds`.  Only one of them takes the reader up again:
what is in front of a stray parenthesis is a program.  The scanner gives the state in
front of the error, by induction on the fragment that the reader is left with.
-/
import LispSyntax.Proofs.DepthLimit
import LispSyntax.Proofs.Scanning

namespace LispSyntax

open Grammar Text

/-- What may be wrong with a source text: a backslash that escapes nothing in an atom or
has no meaning in a string, a string or a list that is open at the end, a marker with
nothing to quote, a closing parenthesis behind a program, or a list or quotation that
nests too deep. -/
inductive Defect where
  | atomEscape
  | stringEscape
  | openString
  | openList
  | danglingMarker
  | strayClose
  | tooDeep
  deriving DecidableEq

namespace Defect

/-- The kind of the error and the name of what was missing. -/
def report : Defect → FailureKind × String
  | atomEscape => (.invalidEscape, "escape sequence")
  | stringEscape => (.invalidEscape, "string-terminator")
  | openString => (.unterminated, "string-terminator")
  | openList => (.unterminated, "closing paren")
  | danglingMarker => (.unexpectedCharacter, "expression")
  | strayClose => (.trailingContent, "expression")
  | tooDeep => (.tooDeeplyNested, "shallower nesting")

/-- What the defect says of the place between `past` and `rest`. -/
def Holds (o : Options) (past rest : List Char) : Defect → Prop
  | atomEscape =>
    past.getLast? = some '\\' ∧ (scan o past rest).mode = .atomEscape ∧
      ∀ c ∈ rest.head?, isReserved c = false
  | stringEscape =>
    past.getLast? = some '\\' ∧ (scan o past rest).mode = .stringEscape ∧
      ∃ c, rest.head? = some c ∧ escaped? c = none
  | openString =>
    rest = [] ∧ ((scan o past rest).mode = .string ∨ (scan o past rest).mode = .stringEscape)
  | openList =>
    rest = [] ∧ 0 < (scan o past rest).opened ∧ (scan o past rest).last ≠ some .marker
  | danglingMarker => (∀ c ∈ rest.head?, c = ')') ∧ (scan o past rest).last = some .marker
  | strayClose => rest.head? = some ')' ∧ ∃ ns, readWith o (String.ofList past) = .ok ns
  | tooDeep =>
    ∃ c, rest.head? = some c ∧ (c = '(' ∨ ∃ k : QuoteKind, k.marker.toList.head? = some c)

theorem report_inj {d d' : Defect} (h : d.report = d'.report) : d = d' := by
  cases d <;> cases d' <;> first | rfl | exact absurd h (by decide)

end Defect

namespace Grammar

variable {o : Options} {past rest : List Char}

/-! ## Fragments -/

theorem exists_opening {b : List Char}
    (h : Form.starting b = some .list ∨ Form.starting b = some .quotation) :
    ∃ c, b.head? = some c ∧ (c = '(' ∨ ∃ k : QuoteKind, k.marker.toList.head? = some c) := by
  rcases h with hlist | hquotation
  · obtain ⟨as, rfl⟩ := Form.starting_list hlist
    exact ⟨'(', rfl, Or.inl rfl⟩
  · obtain ⟨a, as, rfl, ha⟩ := Form.starting_quotation hquotation
    refine ⟨a, rfl, Or.inr ?_⟩
    rcases ha with rfl | rfl | rfl
    · exact ⟨.quote, rfl⟩
    · exact ⟨.quasiquote, rfl⟩
    · exact ⟨.unquote, rfl⟩

namespace Fragment

section

variable {levels : Nat} {m : Mode} {n : Nat} {t : Option Token}

theorem holds_atomEscape {us : List AtomUnit} (hf : (atom us).Stalls levels rest)
    (hm : m.Idle ((atom us).text ++ rest))
    (hscan : scan o past rest = Scan.run ⟨m, n, t⟩ (atom us).text) :
    Defect.atomEscape.Holds o past rest := by
  have hmode : (scan o past rest).mode = .atomEscape := by
    rw [hscan, text, Scan.run_append]
    by_cases hus : us = []
    · subst hus
      have hslash : Scan.step ⟨m, n, t⟩ '\\' = ⟨.atomEscape, n, some .atom⟩ := hm.step_eq
      exact congrArg Scan.mode hslash
    · rw [text, List.append_assoc] at hm
      rw [Scan.run_atom hus hf.1 hm]
      rfl
  exact ⟨Scan.getLast?_of_scan (Or.inl hmode), hmode, hf.2⟩

theorem mode_of_string {us : List StringUnit} {slash : Bool}
    (hf : (string us slash).Stalls levels rest) (hm : m.Idle ((string us slash).text ++ rest)) :
    (Scan.run ⟨m, n, t⟩ (string us slash).text).mode =
      if slash then .stringEscape else .string := by
  have hopen : Scan.run ⟨m, n, t⟩ ('"' :: us.flatMap StringUnit.text) =
      ⟨.string, n, some .string⟩ := Scan.run_openString hf.1 hm
  rw [text, ← List.cons_append, Scan.run_append, hopen]
  cases slash <;> rfl

theorem exists_defect_string {us : List StringUnit} {slash : Bool}
    (hf : (string us slash).Stalls levels rest) (hm : m.Idle ((string us slash).text ++ rest))
    (hscan : scan o past rest = Scan.run ⟨m, n, t⟩ (string us slash).text) :
    ∃ d : Defect, d.report = (((string us slash).cause rest).kind,
      ((string us slash).cause rest).expected) ∧ d.Holds o past rest := by
  have hmode := mode_of_string (n := n) (t := t) hf hm
  rw [← hscan] at hmode
  by_cases hnil : rest = []
  · refine ⟨.openString, by rw [cause, if_pos hnil]; rfl, hnil, ?_⟩
    cases slash with
    | false => exact Or.inl hmode
    | true => exact Or.inr hmode
  · cases slash with
    | false => exact absurd hf.2 hnil
    | true =>
      have hlast := Scan.getLast?_of_scan (Or.inr hmode)
      refine ⟨.stringEscape, by rw [cause, if_neg hnil]; rfl, hlast, hmode, ?_⟩
      cases rest with
      | nil => exact absurd rfl hnil
      | cons c rest => exact ⟨c, rfl, hf.2 c rfl⟩

/-- A fragment that stalls shows its defect.  In front of a missing expression this is
only so behind a marker, and otherwise nothing is wrong but the rest. -/
theorem exists_defect {f : Fragment} (hf : f.Stalls levels rest) (hm : m.Idle (f.text ++ rest))
    (hmissing : f = .missing → t = some .marker)
    (hscan : scan o past rest = Scan.run ⟨m, n, t⟩ f.text) :
    ∃ d : Defect, d.report = ((f.cause rest).kind, (f.cause rest).expected) ∧
      d.Holds o past rest := by
  -- all fragments in the fragment end at one place, and the scanner is led to where they start
  induction f generalizing levels m n t with
  | missing => exact ⟨.danglingMarker, rfl, hf, by rw [hscan]; exact hmissing rfl⟩
  | cut => exact ⟨.tooDeep, rfl, exists_opening hf.2⟩
  | atom us => exact ⟨.atomEscape, rfl, holds_atomEscape hf hm hscan⟩
  | string us slash => exact exists_defect_string hf hm hscan
  | unclosed gap items =>
    obtain ⟨_, hgap, hitems, hnil⟩ := hf
    have hm' : m.Idle ('(' :: (gap.text ++ (items.text ++ rest))) := by
      simpa [text] using hm
    obtain ⟨m₁, t₁, _, ht₁, hrun⟩ := Scan.run_openItems (n := n) (t := t) hgap hitems hm'
    have hend : scan o past rest = ⟨m₁, n + 1, t₁⟩ := by
      rw [hscan, text, hrun]
    refine ⟨.openList, rfl, hnil, ?_, ?_⟩
    · rw [hend]
      exact Nat.succ_pos n
    · rw [hend]
      exact ht₁
  | list gap items inner ih =>
    obtain ⟨_, hgap, hitems, hne, hinner⟩ := hf
    have hm' : m.Idle ('(' :: (gap.text ++ (items.text ++ (inner.text ++ rest)))) := by
      simpa [text] using hm
    obtain ⟨m₁, t₁, hm₁, _, hrun⟩ := Scan.run_openItems (n := n) (t := t) hgap hitems hm'
    refine ih hinner hm₁ (fun hmiss => absurd hmiss hne) (n := n + 1) (t := t₁) ?_
    rw [hscan, text, ← List.append_assoc, ← List.cons_append, Scan.run_append, hrun]
  | quotation k gap inner ih =>
    obtain ⟨_, hat, hgap, hinner⟩ := hf
    have hm' : m.Idle (k.marker.toList ++ (gap.text ++ (inner.text ++ rest))) := by
      simpa [text] using hm
    obtain ⟨m₁, hm₁, hmarker⟩ := Scan.run_marker (n := n) (t := t) k hm' hat
    obtain ⟨m₂, hm₂, hrun⟩ := Scan.run_gap (n := n) (t := some .marker) hgap hm₁
    refine ih hinner hm₂ (fun _ => rfl) (n := n) (t := some .marker) ?_
    rw [hscan, text, Scan.run_append, hmarker, Scan.run_append, hrun]

end

end Fragment

/-! ## Programs -/

namespace Layout

variable {l : Layout} {b : List Char}

/-- What is in front of a stray parenthesis is a program of its own. -/
theorem Legal.drop_rest (h : l.Legal o b) (hinner : l.inner = .missing) (hb : b ≠ []) :
    l.Legal o [] where
  shebang_iff := by
    rw [← isPrefix_congr h (by simp)]
    exact h.shebang_iff
  shebang s hs := (h.shebang s hs).congr fun hnil => absurd hnil (by simp [hb])
  gap := h.gap.congr fun hnil => absurd hnil (by simp [hb])
  items := by
    have hitems := h.items
    rw [hinner] at hitems ⊢
    exact hitems.congr (fun _ => endsAtom_nil) fun hnil => absurd hnil (by simp [hb])
  depth_le := h.depth_le
  inner := by
    rw [hinner]
    exact fun c hc => absurd hc (by simp)

theorem exists_defect (h : l.Legal o b) (hcomplete : ¬l.Complete b) :
    ∃ d : Defect, d.report = ((l.cause b).kind, (l.cause b).expected) ∧ d.Holds o l.text b := by
  by_cases hinner : l.inner = .missing
  · have hb : b ≠ [] := fun hb => hcomplete ⟨hinner, hb⟩
    have hcause : l.cause b = .strayContent := by
      rw [cause, hinner]
    have hstalls : ∀ c ∈ b.head?, c = ')' := by
      have hstalls := h.inner
      rwa [hinner] at hstalls
    have hsource : (String.ofList l.text).toList = l.text ++ [] := by simp
    have hread := readWith_of_complete (h.drop_rest hinner hb) ⟨hinner, rfl⟩ hsource
    refine ⟨.strayClose, by rw [hcause]; rfl, ?_, _, hread⟩
    cases b with
    | nil => exact absurd rfl hb
    | cons c b => rw [hstalls c rfl]; rfl
  · obtain ⟨m, hm, hlead⟩ := Scan.run_lead h.shebang_iff h.shebang h.gap
    obtain ⟨m₁, t₁, hm₁, _, hitems⟩ := Scan.run_derivations l.items (n := 0) (t := none)
      h.items hm (by decide)
    rw [cause_of_ne_missing hinner]
    refine Fragment.exists_defect h.inner hm₁ (fun hmiss => absurd hmiss hinner) (n := 0)
      (t := t₁) ?_
    have hlead' : (Scan.atStart o (l.text ++ b)).run l.lead = ⟨m, 0, none⟩ := hlead
    have htext : l.text = l.lead ++ (l.items.text ++ l.inner.text) := rfl
    rw [scan, htext, Scan.run_append, ← htext, hlead', Scan.run_append, hitems]

end Layout
end Grammar

/-- Every error of a program shows one defect, and its kind and the name of what was
missing tell which. -/
theorem readWith_defect (o : Options) (source : String) (e : SyntaxError)
    (h : readWith o source = .error e) :
    ∃ past rest, source.toList = past ++ rest ∧ e.position = Position.start.after past ∧
      e.position.offset = width past ∧ e.found = rest.head? ∧
      ∃ d : Defect, (e.kind, e.expected) = d.report ∧ d.Holds o past rest ∧
        ∀ d' : Defect, (e.kind, e.expected) = d'.report → d' = d := by
  obtain ⟨stall, hstall, rfl⟩ := stall_of_readWith h
  obtain ⟨l, b, hsource, hl⟩ := layout_split o source.toList
  rw [hsource] at hstall ⊢
  have hcomplete : ¬l.Complete b := by
    intro hcomplete
    rw [program_of_complete hl hcomplete] at hstall
    simp at hstall
  rw [program_of_stalls hl hcomplete] at hstall
  obtain rfl := Except.error.inj hstall
  obtain ⟨hposition, hfound⟩ := SyntaxError.ofStall_append l.text b (l.cause b)
  obtain ⟨d, hreport, hholds⟩ := Layout.exists_defect hl hcomplete
  refine ⟨l.text, b, rfl, hposition, ?_, hfound, d, hreport.symm, hholds, ?_⟩
  · rw [hposition, Position.offset_start_after]
  · intro d' hd'
    exact Defect.report_inj (hd'.symm.trans hreport.symm)

/-- A marker at the end of a list that does not close, and a backslash at the end of a
string that does not. -/
theorem readWith_defect_mixed :
    (∃ e past rest, readWith {} "(a '" = .error e ∧ "(a '".toList = past ++ rest ∧
      e.position = Position.start.after past ∧ Defect.danglingMarker.Holds {} past rest) ∧
    ∃ e past rest, readWith {} "(\"\\" = .error e ∧ "(\"\\".toList = past ++ rest ∧
      e.position = Position.start.after past ∧ Defect.openString.Holds {} past rest := by
  constructor
  · have hprogram : program {} "(a '".toList = .error ⟨⟨4, []⟩, .noExpression⟩ := rfl
    have hread : readWith {} "(a '" = .error (.ofStall "(a '".toList ⟨⟨4, []⟩, .noExpression⟩) := by
      rw [readWith, hprogram]
    obtain ⟨past, rest, htext, hplace, _, _, d, hreport, hholds, _⟩ := readWith_defect _ _ _ hread
    obtain rfl : d = .danglingMarker := Defect.report_inj (hreport.symm.trans rfl)
    exact ⟨_, past, rest, hread, htext, hplace, hholds⟩
  · have hprogram : program {} "(\"\\".toList = .error ⟨⟨3, []⟩, .openString⟩ := rfl
    have hread : readWith {} "(\"\\" =
        .error (.ofStall "(\"\\".toList ⟨⟨3, []⟩, .openString⟩) := by
      rw [readWith, hprogram]
    obtain ⟨past, rest, htext, hplace, _, _, d, hreport, hholds, _⟩ := readWith_defect _ _ _ hread
    obtain rfl : d = .openString := Defect.report_inj (hreport.symm.trans rfl)
    exact ⟨_, past, rest, hread, htext, hplace, hholds⟩

end LispSyntax
