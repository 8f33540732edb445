/-
Lookups agree with counting.

The place behind a text is found by counting: its bytes, its newlines, and the
characters behind its last newline.  An index of lines finds the same place, though it
counts from wherever the last lookup was.  One lookup does so by `lookup?_of_isIn`, and
gives a place to count from to the next, so any run of lookups does.  The readers look
their places up in this way, at offsets between characters only: none of their lookups
fails, and every place that they report is one that counting gives.
-/
import LispSyntax.Proofs.ErrorPlace
import LispSyntax.Proofs.WellFormed

namespace LispSyntax

open Grammar Text

/-! ## Counting -/

namespace Position

/-- The place behind a text, counted in the text. -/
def counted (past : List Char) : Position :=
  ⟨width past, 1 + past.count '\n', 1 + (past.reverse.takeWhile (· != '\n')).length⟩

theorem counted_concat (past : List Char) (c : Char) :
    counted (past ++ [c]) = (counted past).advance c := by
  unfold counted advance
  by_cases hc : c = '\n'
  · simp [hc, Nat.add_assoc]
  · simp [hc, Nat.add_assoc]

/-- Moving over a text from the start comes to the place that is counted. -/
theorem start_after_eq_counted (past : List Char) : start.after past = counted past := by
  have hreverse : ∀ cs : List Char, start.after cs.reverse = counted cs.reverse := by
    intro cs
    induction cs with
    | nil => rfl
    | cons c cs ih =>
      rw [List.reverse_cons, after_append, ih, counted_concat]
      rfl
  have hpast := hreverse past.reverse
  rwa [List.reverse_reverse] at hpast

/-- The place is between two characters of the source, with the line and the column that
are counted there. -/
def CountedIn (source : List Char) (p : Position) : Prop :=
  ∃ past, past <+: source ∧ p = counted past

theorem IsIn.countedIn {source : List Char} {p : Position} (h : p.IsIn source) :
    p.CountedIn source := by
  obtain ⟨past, behind, rfl, rfl⟩ := h
  exact ⟨past, List.prefix_append past behind, start_after_eq_counted past⟩

end Position

/-! ## Runs of lookups -/

namespace LineIndex

/-- The places that lookups at byte offsets give one after the other, each with the place
before it as the last.  There are none if one of the lookups fails. -/
def lookups? (index : LineIndex) (last : Position) : List Nat → Option (List Position)
  | [] => some []
  | offset :: offsets =>
    match index.lookup? last offset with
    | none => none
    | some p => (index.lookups? p offsets).map (p :: ·)

theorem lookups?_of_isIn {source : List Char} {last : Position} (hlast : last.IsIn source)
    {pasts : List (List Char)} (hpasts : ∀ past ∈ pasts, past <+: source) :
    (ofText source).lookups? last (pasts.map width) = some (pasts.map Position.start.after) := by
  induction pasts generalizing last with
  | nil => rfl
  | cons past pasts ih =>
    obtain ⟨rest, hrest⟩ := hpasts past List.mem_cons_self
    have hlookup := lookup?_of_isIn hlast hrest.symm
    have hnext : (Position.start.after past).IsIn source := ⟨past, rest, hrest.symm, rfl⟩
    have hrun := ih hnext fun past' hpast' => hpasts past' (List.mem_cons_of_mem past hpast')
    rw [List.map_cons, lookups?, hlookup]
    show Option.map _ ((ofText source).lookups? (Position.start.after past) _) = _
    rw [hrun]
    rfl

end LineIndex

/-! ## Places in a tree -/

namespace Node

variable {π ρ : Type}

mutual
/-- The places in a tree, those of the children before those of a list. -/
def places : Node π → List π
  | .atom s _ => [s.start, s.stop]
  | .string s _ => [s.start, s.stop]
  | .list s ns => placesAll ns ++ [s.start, s.stop]

/-- The places in trees, one tree after the other. -/
def placesAll : List (Node π) → List π
  | [] => []
  | n :: ns => places n ++ placesAll ns
end

mutual
theorem places_map (f : π → ρ) : (n : Node π) → (n.map f).places = n.places.map f
  | .atom _ _ => rfl
  | .string _ _ => rfl
  | .list s ns => by
    rw [map, places, places, placesAll_mapAll f ns, List.map_append]
    rfl

theorem placesAll_mapAll (f : π → ρ) : (ns : List (Node π)) →
    placesAll (mapAll f ns) = (placesAll ns).map f
  | [] => rfl
  | n :: ns => by
    rw [mapAll, placesAll, placesAll, places_map f n, placesAll_mapAll f ns, List.map_append]
end

mutual
theorem exists_of_mem_places : (n : Node π) → (depth : Nat) → ∀ p ∈ n.places,
    ∃ m ∈ n.preorder depth, p = m.2.span.start ∨ p = m.2.span.stop
  | .atom s t, depth => by
    intro p hp
    exact ⟨_, mem_preorder _ depth, by simpa [places, span] using hp⟩
  | .string s t, depth => by
    intro p hp
    exact ⟨_, mem_preorder _ depth, by simpa [places, span] using hp⟩
  | .list s ns, depth => by
    intro p hp
    rcases List.mem_append.1 hp with hp | hp
    · obtain ⟨m, hm, hplace⟩ := exists_of_mem_placesAll ns (depth + 1) p hp
      exact ⟨m, List.mem_cons_of_mem _ hm, hplace⟩
    · exact ⟨_, mem_preorder _ depth, by simpa [span] using hp⟩

theorem exists_of_mem_placesAll : (ns : List (Node π)) → (depth : Nat) → ∀ p ∈ placesAll ns,
    ∃ m ∈ preorderAll depth ns, p = m.2.span.start ∨ p = m.2.span.stop
  | [], _ => fun p hp => absurd hp (by simp [placesAll])
  | n :: ns, depth => by
    intro p hp
    rcases List.mem_append.1 hp with hp | hp
    · obtain ⟨m, hm, hplace⟩ := exists_of_mem_places n depth p hp
      exact ⟨m, List.mem_append_left _ hm, hplace⟩
    · obtain ⟨m, hm, hplace⟩ := exists_of_mem_placesAll ns depth p hp
      exact ⟨m, List.mem_append_right _ hm, hplace⟩
end

end Node

/-- Places of a text are behind parts of it. -/
theorem Position.exists_pasts {source : List Char} {ps : List Position}
    (h : ∀ p ∈ ps, p.IsIn source) : ∃ pasts : List (List Char),
      (∀ past ∈ pasts, past <+: source) ∧ ps = pasts.map Position.start.after := by
  induction ps with
  | nil => exact ⟨[], by simp, rfl⟩
  | cons p ps ih =>
    obtain ⟨past, behind, hsource, hp⟩ := h p List.mem_cons_self
    obtain ⟨pasts, hpasts, hplaces⟩ := ih fun q hq => h q (List.mem_cons_of_mem p hq)
    refine ⟨past :: pasts, ?_, ?_⟩
    · intro past' hpast'
      rcases List.mem_cons.1 hpast' with rfl | hpast'
      · exact ⟨behind, hsource.symm⟩
      · exact hpasts past' hpast'
    · rw [List.map_cons, ← hp, ← hplaces]

/-- The places of the trees of derivations, counted in bytes and looked up. -/
theorem Grammar.exists_pasts_of_nodes {ds : Derivations} {past behind source : List Char}
    (h : source = past ++ (ds.text ++ behind)) : ∃ pasts : List (List Char),
      (∀ p ∈ pasts, p <+: source) ∧
      Node.placesAll (ds.nodes byBytes (width past)) = pasts.map width ∧
      Node.placesAll ((Locator.atStart source).locateAll (ds.nodes byBytes (width past))).1 =
        pasts.map Position.start.after := by
  have hlocated := locateAll_nodes ds (Locator.atStart source) past behind h
  have hoffsets : Node.placesAll (ds.nodes byBytes (width past)) =
      (Node.placesAll (ds.nodes Position.after (Position.start.after past))).map
        Position.offset := by
    rw [← Node.placesAll_mapAll,
      mapAll_nodes (fun p cs => Position.offset_after p cs : ∀ p cs, _ = byBytes p.offset cs),
      Position.offset_start_after]
  have hin : ∀ p ∈ Node.placesAll (ds.nodes Position.after (Position.start.after past)),
      p.IsIn source := by
    intro p hp
    rw [← hlocated] at hp
    obtain ⟨m, hm, rfl | rfl⟩ := Node.exists_of_mem_placesAll _ 0 p hp
    · exact (Locator.isIn_locateAll _ _ 0 m hm).1
    · exact (Locator.isIn_locateAll _ _ 0 m hm).2
  obtain ⟨pasts, hpasts, hplaces⟩ := Position.exists_pasts hin
  refine ⟨pasts, hpasts, ?_, ?_⟩
  · rw [hoffsets, hplaces, List.map_map]
    exact List.map_congr_left fun past _ => Position.offset_start_after past
  · rw [hlocated, hplaces]

/-! ## Lookups of the readers -/

namespace EntryPoint

/-- What a reader makes of a text before it looks any place up. -/
def parse : EntryPoint → List Char → Except Stall (List (Node Nat))
  | .program o, cs => Grammar.program o cs
  | .expression, cs => (alone (Grammar.expression Node.maxNesting) cs).map fun n => [n]
  | .atom, cs => (alone atomRule cs).map fun n => [n]
  | .string, cs => (alone stringRule cs).map fun n => [n]

/-- The answer of a reader, its places looked up in the text. -/
def located (source : List Char) :
    Except Stall (List (Node Nat)) → Except SyntaxError (List (Node Position))
  | .ok ns => .ok ((Locator.atStart source).locateAll ns).1
  | .error s => .error (.ofStall source s)

/-- The byte offsets that a reader looks up in a text, in this order. -/
def reported (entry : EntryPoint) (cs : List Char) : List Nat :=
  match entry.parse cs with
  | .ok ns => Node.placesAll ns
  | .error s => [s.place.offset]

/-- The places in the answer of a reader. -/
def answered (entry : EntryPoint) (source : String) : List Position :=
  match entry.read source with
  | .ok ns => Node.placesAll ns
  | .error e => [e.position]

variable {source : String}

theorem readAlone_eq_located (rule : Rule) (source : String) :
    (readAlone rule source).map (fun n => [n]) =
      located source.toList ((alone rule source.toList).map fun n => [n]) := by
  rw [readAlone]
  cases alone rule source.toList <;> rfl

/-- Every reader parses its text and then looks up places. -/
theorem read_eq_located (entry : EntryPoint) (source : String) :
    entry.read source = located source.toList (entry.parse source.toList) := by
  cases entry with
  | program o =>
    rw [read, readWith, parse]
    cases Grammar.program o source.toList <;> rfl
  | expression => exact readAlone_eq_located _ source
  | atom => exact readAlone_eq_located _ source
  | string => exact readAlone_eq_located _ source

/-- Every reader is that of programs, or reads with one rule. -/
theorem parse_cases (entry : EntryPoint) :
    (∃ o, ∀ cs, entry.parse cs = Grammar.program o cs) ∨
      ∃ rule, Nonempty (Rule.Account rule) ∧
        ∀ cs, entry.parse cs = (alone rule cs).map fun n => [n] := by
  cases entry with
  | program o => exact Or.inl ⟨o, fun _ => rfl⟩
  | expression => exact Or.inr ⟨_, ⟨expressionAccount Node.maxNesting⟩, fun _ => rfl⟩
  | atom => exact Or.inr ⟨_, ⟨tokenAccount .atom (Or.inl rfl)⟩, fun _ => rfl⟩
  | string => exact Or.inr ⟨_, ⟨tokenAccount .string (Or.inr rfl)⟩, fun _ => rfl⟩

theorem exists_of_parse (entry : EntryPoint) {cs : List Char} {ns : List (Node Nat)}
    (h : entry.parse cs = .ok ns) : ∃ (past : List Char) (ds : Derivations) (behind : List Char),
      cs = past ++ (ds.text ++ behind) ∧ ns = ds.nodes byBytes (width past) := by
  rcases entry.parse_cases with ⟨o, hparse⟩ | ⟨rule, ⟨account⟩, hparse⟩
  · rw [hparse] at h
    obtain ⟨l, b, rfl, hl⟩ := layout_split o cs
    by_cases hcomplete : l.Complete b
    · rw [program_of_complete hl hcomplete] at h
      exact ⟨l.lead, l.items, l.inner.text ++ b, by simp [Layout.text], (Except.ok.inj h).symm⟩
    · rw [program_of_stalls hl hcomplete] at h
      simp at h
  · rw [hparse] at h
    cases halone : alone rule cs with
    | error s => simp [halone, Except.map] at h
    | ok n =>
      obtain rfl : [n] = ns := by simpa [halone, Except.map] using h
      obtain ⟨g, d, g', rfl, rfl⟩ := exists_of_alone account halone
      exact ⟨g.text, .cons d g' .nil, [], by simp [Derivations.text], rfl⟩

theorem exists_of_parse_error (entry : EntryPoint) {cs : List Char} {s : Stall}
    (h : entry.parse cs = .error s) :
    ∃ past rest, cs = past ++ rest ∧ s.place = ⟨width past, rest⟩ := by
  rcases entry.parse_cases with ⟨o, hparse⟩ | ⟨rule, ⟨account⟩, hparse⟩
  · rw [hparse] at h
    obtain ⟨past, rest, hcs, hplace, _⟩ := program_correctPrefix o cs s h
    exact ⟨past, rest, hcs, hplace⟩
  · rw [hparse] at h
    cases halone : alone rule cs with
    | ok n => simp [halone, Except.map] at h
    | error s' =>
      obtain rfl : s' = s := by simpa [halone, Except.map] using h
      obtain ⟨past, rest, hcs, hplace, _⟩ := alone_correctPrefix account cs s' halone
      exact ⟨past, rest, hcs, hplace⟩

/-- A reader looks up offsets behind parts of the text only, and answers the places there. -/
theorem reported_eq (entry : EntryPoint) (source : String) : ∃ pasts : List (List Char),
    (∀ past ∈ pasts, past <+: source.toList) ∧
      entry.reported source.toList = pasts.map width ∧
      entry.answered source = pasts.map Position.start.after := by
  unfold reported answered
  rw [read_eq_located]
  cases hparse : entry.parse source.toList with
  | ok ns =>
    obtain ⟨past, ds, behind, htext, rfl⟩ := entry.exists_of_parse hparse
    exact exists_pasts_of_nodes htext
  | error s =>
    obtain ⟨past, rest, htext, hplace⟩ := entry.exists_of_parse_error hparse
    obtain ⟨place, cause⟩ := s
    obtain rfl : place = ⟨width past, rest⟩ := hplace
    refine ⟨[past], ?_, rfl, ?_⟩
    · intro past' hpast'
      rw [List.mem_singleton.1 hpast', htext]
      exact List.prefix_append past rest
    · have hposition := (SyntaxError.ofStall_append past rest cause).1
      rw [← htext] at hposition
      exact congrArg (fun p => [p]) hposition

/-- The lookups of a reader all succeed, each counting from the one before it, and give the
places in its answer. -/
theorem lookups?_reported (entry : EntryPoint) (source : String) :
    (LineIndex.ofText source.toList).lookups? .start (entry.reported source.toList) =
      some (entry.answered source) := by
  obtain ⟨pasts, hpasts, hreported, hanswered⟩ := entry.reported_eq source
  have hstart : Position.start.IsIn source.toList := ⟨[], source.toList, rfl, rfl⟩
  rw [hreported, hanswered, LineIndex.lookups?_of_isIn hstart hpasts]

/-! ## Places that are reported -/

theorem isIn_of_read (entry : EntryPoint) {ns : List (Node Position)}
    (h : entry.read source = .ok ns) : ∀ m ∈ Node.preorderAll 0 ns,
      m.2.span.start.IsIn source.toList ∧ m.2.span.stop.IsIn source.toList := by
  rw [read_eq_located] at h
  cases hparse : entry.parse source.toList with
  | error s => simp [hparse, located] at h
  | ok ms =>
    rw [hparse] at h
    obtain rfl := Except.ok.inj h
    exact Locator.isIn_locateAll ms _ 0

theorem isIn_of_read_error (entry : EntryPoint) {e : SyntaxError}
    (h : entry.read source = .error e) : e.position.IsIn source.toList := by
  rw [read_eq_located] at h
  cases hparse : entry.parse source.toList with
  | ok ms => simp [hparse, located] at h
  | error s =>
    rw [hparse] at h
    obtain rfl := Except.error.inj h
    exact Locator.reached _

end EntryPoint

/-- Lookups between characters of a text, in any order and however many, all succeed and
give the places that are counted.  Every place in a tree or an error of a reader is one
of these. -/
theorem LineIndex.lookups_eq_counted (source : String) :
    (∀ pasts : List (List Char), (∀ past ∈ pasts, past <+: source.toList) →
      (ofText source.toList).lookups? .start (pasts.map width) =
        some (pasts.map Position.counted)) ∧
    ∀ entry : EntryPoint,
      (∀ ns, entry.read source = .ok ns → ∀ m ∈ Node.preorderAll 0 ns,
        m.2.span.start.CountedIn source.toList ∧ m.2.span.stop.CountedIn source.toList) ∧
      ∀ e, entry.read source = .error e → e.position.CountedIn source.toList := by
  refine ⟨fun pasts hpasts => ?_, fun entry => ⟨fun ns h m hm => ?_, fun e h => ?_⟩⟩
  · have hstart : Position.start.IsIn source.toList := ⟨[], source.toList, rfl, rfl⟩
    rw [lookups?_of_isIn hstart hpasts, funext Position.start_after_eq_counted]
  · obtain ⟨hstart, hstop⟩ := entry.isIn_of_read h m hm
    exact ⟨hstart.countedIn, hstop.countedIn⟩
  · exact (entry.isIn_of_read_error h).countedIn

/-- Lookups ahead and back on a line of wide characters and on another line, the place of
the error behind them, and the places of a quotation of a wide character. -/
theorem LineIndex.lookups_eq_counted_wide :
    (ofText "aé\n€(𝄞\\x".toList).lookups? .start [8, 4, 3, 13, 7, 12, 1] =
      some [⟨8, 2, 3⟩, ⟨4, 2, 1⟩, ⟨3, 1, 3⟩, ⟨13, 2, 5⟩, ⟨7, 2, 2⟩, ⟨12, 2, 4⟩, ⟨1, 1, 2⟩] ∧
    (∃ e, (EntryPoint.program {}).read "aé\n€(𝄞\\x" = .error e ∧ e.position = ⟨13, 2, 5⟩ ∧
      e.position.CountedIn "aé\n€(𝄞\\x".toList) ∧
    ∃ n, EntryPoint.expression.read "é" = .ok [n] ∧ n.span.stop = ⟨2, 1, 2⟩ ∧
      n.span.stop.CountedIn "é".toList := by
  refine ⟨?_, ?_, ?_⟩
  · exact (lookups_eq_counted "aé\n€(𝄞\\x").1 (["aé\n€(", "aé\n", "aé", "aé\n€(𝄞\\", "aé\n€",
      "aé\n€(𝄞", "a"].map String.toList) (by decide +kernel)
  · have hread : ∃ e, (EntryPoint.program {}).read "aé\n€(𝄞\\x" = .error e ∧
        e.position = ⟨13, 2, 5⟩ := ⟨_, rfl, by decide +kernel⟩
    obtain ⟨e, he, hplace⟩ := hread
    exact ⟨e, he, hplace, ((lookups_eq_counted _).2 (.program {})).2 e he⟩
  · have hread : ∃ n, EntryPoint.expression.read "é" = .ok [n] ∧ n.span.stop = ⟨2, 1, 2⟩ :=
      ⟨_, rfl, by decide +kernel⟩
    obtain ⟨n, hn, hstop⟩ := hread
    have hall := ((lookups_eq_counted _).2 .expression).1 [n] hn
    exact ⟨n, hn, hstop, (hall (0, n) (List.mem_append_left _ (n.mem_preorder 0))).2⟩

end LispSyntax
