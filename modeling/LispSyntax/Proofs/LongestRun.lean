/-
Where tokens stop.

An atom consists of pieces, each of them a character that is not reserved or a backslash
and a reserved character.  A string has pieces of its own between its delimiters.  The
reader of a token takes the longest run of pieces that the text goes on with, and what
stands behind that run decides what the token comes to.  `AtomOutcome` and
`StringOutcome` list the cases without mention of the reader, and `token_eq_iff_outcome`
shows that they are exactly what the reader does.
-/
import Mathlib.Logic.ExistsUnique
import LispSyntax.Proofs.Tokens

namespace LispSyntax
namespace Grammar

open Text

/-- From `c` to `d` lies the run of the pieces `us`, and no run of pieces from `c` goes
on behind `d`. -/
structure LongestRun {α : Type} (text : α → List Char) (legal : α → Prop) (c : Cursor)
    (us : List α) (d : Cursor) : Prop where
  pieces : ∀ u ∈ us, legal u
  ahead : c.Over (us.flatMap text) d
  longest : ∀ (vs : List α) (e : Cursor), (∀ v ∈ vs, legal v) → c.Over (vs.flatMap text) e →
    e.offset ≤ d.offset

section Runs

variable {α : Type} {text : α → List Char} {legal : α → Prop} {c d e : Cursor} {us vs : List α}

/-- Of two runs of pieces, one behind which no piece stands is the longer. -/
theorem offset_le_of_not_isPrefix
    (hpiece : ∀ u u' cs cs', legal u → legal u' → text u ++ cs = text u' ++ cs' →
      u = u' ∧ cs = cs')
    (hus : ∀ u ∈ us, legal u) (hd : c.Over (us.flatMap text) d)
    (hstop : ∀ u, legal u → ¬text u <+: d.rest)
    (hvs : ∀ v ∈ vs, legal v) (he : c.Over (vs.flatMap text) e) : e.offset ≤ d.offset := by
  induction vs generalizing c us with
  | nil =>
    rw [← he.eq_of_nil]
    exact Cursor.Reaches.offset_le ⟨_, hd⟩
  | cons v vs ih =>
    rw [List.flatMap_cons] at he
    obtain ⟨mid, hv, hrest⟩ := he.split
    have hlegal := hvs v List.mem_cons_self
    cases us with
    | nil =>
      -- the longer run would start with a piece behind the shorter
      obtain rfl := hd.eq_of_nil
      exact absurd ⟨mid.rest, hv.1.symm⟩ (hstop v hlegal)
    | cons u us =>
      rw [List.flatMap_cons] at hd
      obtain ⟨mid', hu, hrest'⟩ := hd.split
      obtain ⟨rfl, -⟩ : u = v ∧ mid'.rest = mid.rest :=
        hpiece u v _ _ (hus u List.mem_cons_self) hlegal (hu.1.symm.trans hv.1)
      obtain rfl : mid' = mid := hu.unique hv
      exact ih (fun w hw => hus w (List.mem_cons_of_mem u hw)) hrest'
        (fun w hw => hvs w (List.mem_cons_of_mem u hw)) hrest

/-- A run is the longest exactly if no piece stands behind it. -/
theorem longestRun_iff
    (hpiece : ∀ u u' cs cs', legal u → legal u' → text u ++ cs = text u' ++ cs' →
      u = u' ∧ cs = cs')
    (hne : ∀ u, text u ≠ []) :
    LongestRun text legal c us d ↔
      (∀ u ∈ us, legal u) ∧ c.Over (us.flatMap text) d ∧
        ∀ u, legal u → ¬text u <+: d.rest := by
  constructor
  · intro hrun
    refine ⟨hrun.pieces, hrun.ahead, ?_⟩
    rintro u hu ⟨behind, hbehind⟩
    have hpass : d.Passes ⟨d.offset + width (text u), behind⟩ :=
      ⟨text u, hne u, hbehind.symm, rfl⟩
    have hover : c.Over ((us ++ [u]).flatMap text) ⟨d.offset + width (text u), behind⟩ := by
      rw [List.flatMap_append, List.flatMap_singleton]
      exact hrun.ahead.trans ⟨hbehind.symm, rfl⟩
    have hlegal : ∀ v ∈ us ++ [u], legal v := by
      intro v hv
      rcases List.mem_append.1 hv with hv | hv
      · exact hrun.pieces v hv
      · rwa [List.mem_singleton.1 hv]
    exact absurd hpass.offset_lt (Nat.not_lt.2 (hrun.longest _ _ hlegal hover))
  · rintro ⟨hus, hover, hstop⟩
    exact ⟨hus, hover, fun vs e hvs he =>
      offset_le_of_not_isPrefix hpiece hus hover hstop hvs he⟩

theorem existsUnique_longestRun
    (hpiece : ∀ u u' cs cs', legal u → legal u' → text u ++ cs = text u' ++ cs' →
      u = u' ∧ cs = cs')
    (hne : ∀ u, text u ≠ []) (h : LongestRun text legal c us d) :
    ∃! run : List α × Cursor, LongestRun text legal c run.1 run.2 := by
  refine ⟨(us, d), h, ?_⟩
  rintro ⟨vs, e⟩ hrun
  obtain ⟨hus, hd, hstop⟩ := (longestRun_iff hpiece hne).1 h
  obtain ⟨hvs, he, hstop'⟩ := (longestRun_iff hpiece hne).1 hrun
  obtain ⟨rfl, -⟩ := flatMap_append_inj (fun cs => ∀ u, legal u → ¬text u <+: cs) hpiece
    (fun u cs hu hcs => hcs u hu (List.prefix_append _ _)) (he.1.symm.trans hd.1) hvs hus
    hstop' hstop
  obtain rfl : e = d := he.unique hd
  rfl

/-- Where no piece stands, the text begins with no run but the empty one. -/
theorem stops_of_not_isPrefix {stops : List Char → Prop} {b : List Char}
    (hsplit : ∃ (us : List α) (b' : List Char), (∀ u ∈ us, legal u) ∧
      b = us.flatMap text ++ b' ∧ stops b')
    (hnone : ∀ u, legal u → ¬text u <+: b) : stops b := by
  obtain ⟨us, b', hus, rfl, hstop⟩ := hsplit
  cases us with
  | nil => exact hstop
  | cons u us =>
    refine absurd ?_ (hnone u (hus u List.mem_cons_self))
    exact ⟨us.flatMap text ++ b', by rw [List.flatMap_cons, List.append_assoc]⟩

end Runs

/-! ## Atoms -/

theorem stopsAtom_iff {b : List Char} : StopsAtom b ↔ ∀ u : AtomUnit, u.Legal → ¬u.text <+: b := by
  constructor
  · rintro hstop u hu ⟨behind, rfl⟩
    cases u with
    | plain a =>
      have hplain : isReserved a = false := hu
      rcases hstop with hends | ⟨b', hb', _⟩
      · have hreserved := (hends a rfl).1
        rw [hplain] at hreserved
        exact absurd hreserved (by simp)
      · obtain rfl : a = '\\' := (List.cons.inj hb').1
        exact absurd hplain (by decide)
    | escaped a =>
      have hreserved : isReserved a = true := hu
      rcases hstop with hends | ⟨b', hb', hlone⟩
      · exact (hends '\\' rfl).2 rfl
      · obtain rfl : a :: behind = b' := (List.cons.inj hb').2
        rw [hlone a rfl] at hreserved
        exact absurd hreserved (by simp)
  · exact stops_of_not_isPrefix (atomUnits_split b)

theorem AtomUnit.text_ne_nil (u : AtomUnit) : u.text ≠ [] := by
  cases u <;> simp [text]

theorem longestRun_atom_iff {c d : Cursor} {us : List AtomUnit} :
    LongestRun AtomUnit.text AtomUnit.Legal c us d ↔
      (∀ u ∈ us, u.Legal) ∧ c.Over (us.flatMap AtomUnit.text) d ∧ StopsAtom d.rest := by
  rw [longestRun_iff AtomUnit.append_inj AtomUnit.text_ne_nil, stopsAtom_iff]

/-- What an atom comes to at `c`, by the text there. -/
inductive AtomOutcome (c : Cursor) : Outcome String → Prop where
  /-- The text is empty, or a reserved character other than the backslash comes first. -/
  | declined (ends : EndsAtom c.rest) : AtomOutcome c (.declined ⟨c, .noAtom⟩)
  /-- A backslash stands behind the longest run.  The fault is behind the backslash. -/
  | failed {us : List AtomUnit} {d e : Cursor}
      (run : LongestRun AtomUnit.text AtomUnit.Legal c us d) (slash : d.Over ['\\'] e) :
      AtomOutcome c (.failed ⟨e, .loneEscape⟩)
  /-- Otherwise the atom is the longest run, its escapes decoded. -/
  | matched {us : List AtomUnit} {d : Cursor} (starts : ¬EndsAtom c.rest)
      (run : LongestRun AtomUnit.text AtomUnit.Legal c us d) (noSlash : d.rest.head? ≠ some '\\') :
      AtomOutcome c (.matched (String.ofList (us.map AtomUnit.char)) d)

theorem AtomOutcome.atomToken_eq {c : Cursor} {o : Outcome String} (h : AtomOutcome c o) :
    atomToken c = o := by
  cases h with
  | declined ends => exact atomToken_of_endsAtom ends
  | @failed us d e run slash =>
    obtain ⟨hus, hover, hstop⟩ := longestRun_atom_iff.1 run
    have hd : d.rest = '\\' :: e.rest := slash.1
    rcases hstop with hends | ⟨b, hb, hlone⟩
    · exact absurd rfl (hends '\\' (by rw [hd]; rfl)).2
    · obtain rfl : e.rest = b := (List.cons.inj (hd.symm.trans hb)).2
      exact atomToken_failed hus (hover.trans slash) hlone
  | @matched us d starts run noSlash =>
    obtain ⟨hus, hover, hstop⟩ := longestRun_atom_iff.1 run
    have hends : EndsAtom d.rest := by
      rcases hstop with hends | ⟨b, hb, _⟩
      · exact hends
      · exact absurd (by rw [hb]; rfl) noSlash
    have hne : us ≠ [] := by
      rintro rfl
      rw [hover.eq_of_nil] at starts
      exact starts hends
    exact atomToken_matched hne hus hover hends

theorem exists_longestRun_atom (c : Cursor) : ∃ (us : List AtomUnit) (d : Cursor),
    LongestRun AtomUnit.text AtomUnit.Legal c us d := by
  obtain ⟨us, b, hus, htext, hstop⟩ := atomUnits_split c.rest
  exact ⟨us, ⟨c.offset + width (us.flatMap AtomUnit.text), b⟩,
    longestRun_atom_iff.2 ⟨hus, ⟨htext, rfl⟩, hstop⟩⟩

theorem existsUnique_longestRun_atom (c : Cursor) : ∃! run : List AtomUnit × Cursor,
    LongestRun AtomUnit.text AtomUnit.Legal c run.1 run.2 := by
  obtain ⟨us, d, hrun⟩ := exists_longestRun_atom c
  exact existsUnique_longestRun AtomUnit.append_inj AtomUnit.text_ne_nil hrun

theorem exists_atomOutcome (c : Cursor) : ∃ o, AtomOutcome c o := by
  by_cases hends : EndsAtom c.rest
  · exact ⟨_, .declined hends⟩
  · obtain ⟨us, d, hrun⟩ := exists_longestRun_atom c
    by_cases hslash : d.rest.head? = some '\\'
    · obtain ⟨b, hb⟩ := List.head?_eq_some_iff.1 hslash
      have hover : d.Over ['\\'] ⟨d.offset + 1, b⟩ := ⟨hb, rfl⟩
      exact ⟨_, .failed hrun hover⟩
    · exact ⟨_, .matched hends hrun hslash⟩

theorem atomToken_eq_iff {c : Cursor} {o : Outcome String} :
    atomToken c = o ↔ AtomOutcome c o := by
  constructor
  · rintro rfl
    obtain ⟨o, ho⟩ := exists_atomOutcome c
    rwa [ho.atomToken_eq]
  · exact AtomOutcome.atomToken_eq

/-! ## Strings -/

theorem stopsString_iff {b : List Char} :
    StopsString b ↔ ∀ u : StringUnit, u.Legal → ¬u.text <+: b := by
  constructor
  · rintro hstop u hu ⟨behind, rfl⟩
    cases u with
    | plain a =>
      obtain ⟨hquote, hslash⟩ : a ≠ '"' ∧ a ≠ '\\' := hu
      rcases hstop with ⟨b', hb'⟩ | hnil | ⟨b', hb', _⟩
      · exact hquote (List.cons.inj hb').1
      · exact absurd hnil (by simp [StringUnit.text])
      · exact hslash (List.cons.inj hb').1
    | escape letter a =>
      have hletter : escaped? letter = some a := hu
      rcases hstop with ⟨b', hb'⟩ | hnil | ⟨b', hb', hlone⟩
      · exact absurd (List.cons.inj hb').1 (by decide)
      · exact absurd hnil (by simp [StringUnit.text])
      · obtain rfl : letter :: behind = b' := (List.cons.inj hb').2
        rw [hlone letter rfl] at hletter
        exact absurd hletter (by simp)
  · exact stops_of_not_isPrefix (stringUnits_split b)

theorem StringUnit.text_ne_nil (u : StringUnit) : u.text ≠ [] := by
  cases u <;> simp [text]

theorem longestRun_string_iff {c d : Cursor} {us : List StringUnit} :
    LongestRun StringUnit.text StringUnit.Legal c us d ↔
      (∀ u ∈ us, u.Legal) ∧ c.Over (us.flatMap StringUnit.text) d ∧ StopsString d.rest := by
  rw [longestRun_iff StringUnit.append_inj StringUnit.text_ne_nil, stopsString_iff]

/-- What a string comes to at `c`, by the text there.  Its characters start at
`first`. -/
inductive StringOutcome (c : Cursor) : Outcome String → Prop where
  /-- No delimiter comes first. -/
  | declined (starts : c.rest.head? ≠ some '"') : StringOutcome c (.declined ⟨c, .noString⟩)
  /-- A delimiter stands behind the longest run, which is the string, its escapes decoded. -/
  | matched {us : List StringUnit} {first d e : Cursor} (opening : c.Over ['"'] first)
      (run : LongestRun StringUnit.text StringUnit.Legal first us d) (closing : d.Over ['"'] e) :
      StringOutcome c (.matched (String.ofList (us.map StringUnit.char)) e)
  /-- A backslash and another character stand behind the longest run.  The fault is
  behind the backslash. -/
  | unknownEscape {us : List StringUnit} {first d e : Cursor} (opening : c.Over ['"'] first)
      (run : LongestRun StringUnit.text StringUnit.Legal first us d) (slash : d.Over ['\\'] e)
      (more : e.rest ≠ []) : StringOutcome c (.failed ⟨e, .unknownEscape⟩)
  /-- The text ends behind the longest run, or behind a backslash there. -/
  | unterminated {us : List StringUnit} {first d e : Cursor} (opening : c.Over ['"'] first)
      (run : LongestRun StringUnit.text StringUnit.Legal first us d)
      (last : d.rest = [] ∨ d.rest = ['\\']) (behind : d.Over d.rest e) :
      StringOutcome c (.failed ⟨e, .openString⟩)

theorem StringOutcome.stringToken_eq {c : Cursor} {o : Outcome String} (h : StringOutcome c o) :
    stringToken c = o := by
  cases h with
  | declined starts => exact stringToken_of_head starts
  | matched opening run closing =>
    exact stringToken_matched run.pieces (opening.trans (run.ahead.trans closing))
  | @unknownEscape us first d e opening run slash more =>
    obtain ⟨hus, hover, hstop⟩ := longestRun_string_iff.1 run
    have hd : d.rest = '\\' :: e.rest := slash.1
    rcases hstop with ⟨b, hb⟩ | hnil | ⟨b, hb, hlone⟩
    · exact absurd (List.cons.inj (hd.symm.trans hb)).1 (by decide)
    · rw [hd] at hnil
      exact absurd hnil (by simp)
    · obtain rfl : e.rest = b := (List.cons.inj (hd.symm.trans hb)).2
      have heq := stringToken_backslash hus (opening.trans (hover.trans slash)) hlone
      rwa [if_neg more] at heq
  | @unterminated us first d e opening run last behind =>
    have he : e.rest = [] := by simpa using behind.1
    rcases last with hnil | hslash
    · rw [hnil] at behind
      obtain rfl := behind.eq_of_nil
      exact stringToken_open run.pieces (opening.trans run.ahead) hnil
    · rw [hslash] at behind
      have hlone : ∀ a ∈ e.rest.head?, escaped? a = none := by simp [he]
      have heq := stringToken_backslash run.pieces (opening.trans (run.ahead.trans behind)) hlone
      rwa [if_pos he] at heq

theorem exists_longestRun_string (c : Cursor) : ∃ (us : List StringUnit) (d : Cursor),
    LongestRun StringUnit.text StringUnit.Legal c us d := by
  obtain ⟨us, b, hus, htext, hstop⟩ := stringUnits_split c.rest
  exact ⟨us, ⟨c.offset + width (us.flatMap StringUnit.text), b⟩,
    longestRun_string_iff.2 ⟨hus, ⟨htext, rfl⟩, hstop⟩⟩

theorem existsUnique_longestRun_string (c : Cursor) : ∃! run : List StringUnit × Cursor,
    LongestRun StringUnit.text StringUnit.Legal c run.1 run.2 := by
  obtain ⟨us, d, hrun⟩ := exists_longestRun_string c
  exact existsUnique_longestRun StringUnit.append_inj StringUnit.text_ne_nil hrun

theorem exists_stringOutcome (c : Cursor) : ∃ o, StringOutcome c o := by
  by_cases hstarts : c.rest.head? = some '"'
  · obtain ⟨cs, hcs⟩ := List.head?_eq_some_iff.1 hstarts
    have hopening : c.Over ['"'] ⟨c.offset + 1, cs⟩ := ⟨hcs, rfl⟩
    obtain ⟨us, d, hrun⟩ := exists_longestRun_string ⟨c.offset + 1, cs⟩
    rcases (longestRun_string_iff.1 hrun).2.2 with ⟨b, hb⟩ | hnil | ⟨b, hb, _⟩
    · have hclosing : d.Over ['"'] ⟨d.offset + 1, b⟩ := ⟨hb, rfl⟩
      exact ⟨_, .matched hopening hrun hclosing⟩
    · have hend : d.Over d.rest d := by
        rw [hnil]
        exact .nil d
      exact ⟨_, .unterminated hopening hrun (Or.inl hnil) hend⟩
    · have hslash : d.Over ['\\'] ⟨d.offset + 1, b⟩ := ⟨hb, rfl⟩
      by_cases hmore : b = []
      · subst hmore
        have hend : d.Over d.rest ⟨d.offset + 1, []⟩ := by rwa [hb]
        exact ⟨_, .unterminated hopening hrun (Or.inr hb) hend⟩
      · exact ⟨_, .unknownEscape hopening hrun hslash hmore⟩
  · exact ⟨_, .declined hstarts⟩

theorem stringToken_eq_iff {c : Cursor} {o : Outcome String} :
    stringToken c = o ↔ StringOutcome c o := by
  constructor
  · rintro rfl
    obtain ⟨o, ho⟩ := exists_stringOutcome c
    rwa [ho.stringToken_eq]
  · exact StringOutcome.stringToken_eq

/-! ## Both tokens -/

/-- At every cursor there is one longest run of the pieces of either token, and what
stands behind it decides what the token comes to.  In an atom only an escape can be
wrong, and in a string the end of the text can be besides. -/
theorem token_eq_iff_outcome (c : Cursor) (o : Outcome String) :
    (∃! run : List AtomUnit × Cursor,
      LongestRun AtomUnit.text AtomUnit.Legal c run.1 run.2) ∧
    (∃! run : List StringUnit × Cursor,
      LongestRun StringUnit.text StringUnit.Legal c run.1 run.2) ∧
    (atomToken c = o ↔ AtomOutcome c o) ∧
    (stringToken c = o ↔ StringOutcome c o) ∧
    (∀ s, atomToken c = .failed s → s.cause.kind = .invalidEscape) ∧
    ∀ s, stringToken c = .failed s →
      s.cause.kind = if s.place.rest = [] then .unterminated else .invalidEscape := by
  refine ⟨existsUnique_longestRun_atom c, existsUnique_longestRun_string c, atomToken_eq_iff,
    stringToken_eq_iff, ?_, ?_⟩
  · intro s hs
    cases atomToken_eq_iff.1 hs with
    | failed run slash => rfl
  · intro s hs
    cases stringToken_eq_iff.1 hs with
    | unknownEscape opening run slash more => exact (if_neg more).symm
    | @unterminated us first d e opening run last behind =>
      have he : e.rest = [] := by simpa using behind.1
      exact (if_pos he).symm

/-- An atom with a backslash behind it that escapes nothing, a string that a backslash
ends, and a string with an escape that is not known. -/
theorem token_eq_iff_outcome_escapes :
    AtomOutcome ⟨2, ['λ', '\\', '(', '\\', 'n']⟩ (.failed ⟨⟨7, ['n']⟩, .loneEscape⟩) ∧
    StringOutcome ⟨0, ['"', 'λ', '\\', 'n', '\\']⟩ (.failed ⟨⟨6, []⟩, .openString⟩) ∧
    StringOutcome ⟨0, ['"', '\\', 't', '\\', 'q', '"']⟩
      (.failed ⟨⟨4, ['q', '"']⟩, .unknownEscape⟩) :=
  ⟨(token_eq_iff_outcome _ _).2.2.1.1 rfl, (token_eq_iff_outcome _ _).2.2.2.1.1 rfl,
    (token_eq_iff_outcome _ _).2.2.2.1.1 rfl⟩

end Grammar
end LispSyntax
