/-
Where the errors of the readers stand.

Each of the readers of source text looks up the place of the stall and says what
character stands there.  With the correct prefix property this gives
`EntryPoint.stopsAt_of_error`: the text in front of an error can be completed, and
nothing behind the character at the error changes it.
-/
import LispSyntax.Proofs.CorrectPrefix
import LispSyntax.Read

namespace LispSyntax

open Grammar Text

/-- The readers of source text. -/
inductive EntryPoint where
  | program (options : Options)
  | expression
  | atom
  | string

namespace EntryPoint

/-- What a reader makes of a text, the one node of an expression as a list. -/
def read : EntryPoint → String → Except SyntaxError (List (Node Position))
  | .program o, source => readWith o source
  | .expression, source => (readExpression source).map fun n => [n]
  | .atom, source => (readAtom source).map fun n => [n]
  | .string, source => (readString source).map fun n => [n]

/-- The error `e` stands where the text stops being completable.  In front of it is
a text that can be completed.  With the character at the error it fails alike,
whatever comes then. -/
def StopsAt (entry : EntryPoint) (source : String) (e : SyntaxError) : Prop :=
  ∃ past rest, source.toList = past ++ rest ∧ e.position = Position.start.after past ∧
    e.position.offset = width past ∧ e.found = rest.head? ∧
    (∃ t ns, entry.read (String.ofList (past ++ t)) = .ok ns) ∧
    ∀ c ∈ rest.head?, ∀ t, ∃ e', entry.read (String.ofList (past ++ c :: t)) = .error e' ∧
      e'.kind = e.kind ∧ e'.expected = e.expected ∧ e'.position = e.position ∧ e'.found = e.found

end EntryPoint

/-- The error behind a part of a text, its place counted in lines and columns. -/
theorem SyntaxError.ofStall_eq (past rest : List Char) (k : Cause) :
    ofStall (past ++ rest) ⟨⟨width past, rest⟩, k⟩ = against (past ++ rest)
      { kind := k.kind, expected := k.expected, position := Position.start.after past } := by
  have hplace := (Locator.atStart (past ++ rest)).seek_place rfl
  rw [ofStall, hplace]

theorem SyntaxError.ofStall_append (past rest : List Char) (k : Cause) :
    (ofStall (past ++ rest) ⟨⟨width past, rest⟩, k⟩).position = Position.start.after past ∧
      (ofStall (past ++ rest) ⟨⟨width past, rest⟩, k⟩).found = rest.head? := by
  rw [ofStall_eq]
  refine ⟨rfl, ?_⟩
  show (dropBytes (Position.start.after past).offset (past ++ rest)).head? = _
  rw [Position.offset_start_after, dropBytes_width_append]

namespace EntryPoint

/-- The reader is that of the grammar with its places looked up. -/
theorem stopsAt_of_correctPrefix {α : Type} {entry : EntryPoint}
    {reader : List Char → Except Stall α} (hcorrect : CorrectPrefix reader)
    (hok : ∀ source a, reader source.toList = .ok a → ∃ ns, entry.read source = .ok ns)
    (herror : ∀ source s, reader source.toList = .error s →
      entry.read source = .error (.ofStall source.toList s))
    {source : String} {e : SyntaxError} (h : entry.read source = .error e) :
    entry.StopsAt source e := by
  cases hreader : reader source.toList with
  | ok a =>
    obtain ⟨ns, hns⟩ := hok source a hreader
    rw [hns] at h
    simp at h
  | error s =>
    obtain ⟨past, rest, htext, hplace, ⟨t, a, hdone⟩, hfails⟩ := hcorrect _ s hreader
    obtain ⟨place, cause⟩ := s
    obtain rfl : place = ⟨width past, rest⟩ := hplace
    have he := herror source _ hreader
    rw [h, htext] at he
    obtain rfl := Except.error.inj he
    obtain ⟨hposition, hfound⟩ := SyntaxError.ofStall_append past rest cause
    refine ⟨past, rest, htext, hposition, ?_, hfound, ⟨t, ?_⟩, ?_⟩
    · rw [hposition, Position.offset_after]
      exact Nat.zero_add _
    · have hdone' : reader (String.ofList (past ++ t)).toList = .ok a := by
        rw [String.toList_ofList, hdone]
      exact hok _ a hdone'
    · intro c hc t
      have hagain : reader (String.ofList (past ++ c :: t)).toList =
          .error ⟨⟨width past, c :: t⟩, cause⟩ := by
        rw [String.toList_ofList]
        exact hfails c hc t
      have hread := herror _ _ hagain
      rw [String.toList_ofList] at hread
      obtain ⟨hposition', hfound'⟩ := SyntaxError.ofStall_append past (c :: t) cause
      exact ⟨_, hread, rfl, rfl, hposition'.trans hposition.symm, hfound'.trans
        (hc.symm.trans hfound.symm)⟩

theorem stopsAt_of_alone {rule : Rule} (account : Rule.Account rule) {entry : EntryPoint}
    (hread : ∀ source, entry.read source = (readAlone rule source).map fun n => [n])
    {source : String} {e : SyntaxError} (h : entry.read source = .error e) :
    entry.StopsAt source e := by
  refine stopsAt_of_correctPrefix (alone_correctPrefix account) ?_ ?_ h
  · intro source n hn
    rw [hread, readAlone, hn]
    exact ⟨_, rfl⟩
  · intro source s hs
    rw [hread, readAlone, hs]
    rfl

/-- Every error of every reader stands where the text stops being completable. -/
theorem stopsAt_of_error (entry : EntryPoint) (source : String) (e : SyntaxError)
    (h : entry.read source = .error e) : entry.StopsAt source e := by
  cases entry with
  | program o =>
    refine stopsAt_of_correctPrefix (program_correctPrefix o) ?_ ?_ h
    · intro source ns hns
      exact ⟨_, by rw [read, readWith, hns]⟩
    · intro source s hs
      rw [read, readWith, hs]
  | expression =>
    exact stopsAt_of_alone (expressionAccount Node.maxNesting) (fun _ => rfl) h
  | atom => exact stopsAt_of_alone (tokenAccount .atom (Or.inl rfl)) (fun _ => rfl) h
  | string => exact stopsAt_of_alone (tokenAccount .string (Or.inr rfl)) (fun _ => rfl) h

/-- A closing parenthesis too many. -/
theorem stopsAt_of_error_surplus : ∃ e, (program {}).read "a)b" = .error e ∧ e.found = some ')' ∧
    (program {}).StopsAt "a)b" e := by
  have hread : (program {}).read "a)b" = .error
      (.ofStall "a)b".toList ⟨⟨1, ")b".toList⟩, .strayContent⟩) := rfl
  exact ⟨_, hread, rfl, stopsAt_of_error _ _ _ hread⟩

end EntryPoint
end LispSyntax
