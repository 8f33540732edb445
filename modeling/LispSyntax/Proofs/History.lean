/-
The state of a session is decided by its commands.

A line of input is a command or it leaves the state alone.  One switch is turned by every
`:shebang`.  The output mode is turned by `:json` and `:pretty`, and either of them leaves
the mode of the other, so the mode hangs on the commands at the end of the history that
are equal: `Follows` says how, `Follows.respond` is one line, and `exists_stateAfter` any
number of them.

A session ends by a command or with its input, and prints the same in both cases.  It
breaks off only if a place in a line cannot be looked up, and that never happens: a
lookup reaches into the tables of the index and subtracts, and nothing else that is done
with a line may fail.
-/
import Mathlib.Algebra.Ring.Parity
import Mathlib.Data.List.DropRight
import LispSyntax.Proofs.Echo
import LispSyntax.Proofs.Lookups

namespace LispSyntax

open Grammar Text

namespace Session

/-! ## One line -/

/-- What a line of input says, the white space at its ends aside. -/
def said (line : String) : String := String.ofList (Text.trim line.toList)

/-- The line ends the session. -/
def Quits (line : String) : Prop := said line = ":quit" ∨ said line = ":exit"

instance (line : String) : Decidable (Quits line) := inferInstanceAs (Decidable (_ ∨ _))

section Line

variable {line : String}

theorem ofLine_of_command {c : Command} (h : Command.ofText? (said line) = some c) :
    Entry.ofLine line = .command c := by
  have hblank : said line ≠ "" := by
    intro hblank
    rw [hblank] at h
    exact absurd h (by simp [Command.ofText?])
  simp only [Entry.ofLine, ← said.eq_1, if_neg hblank, h]

theorem respond_of_quits (h : Quits line) (s : Session) :
    s.respond line = ⟨[farewell], none⟩ := by
  have hline : Entry.ofLine line = .command .quit := by
    apply ofLine_of_command
    rcases h with h | h <;> rw [h] <;> rfl
  simp only [respond, hline]

/-- A line that is none of the commands that change or end a session leaves the state alone:
a blank line, a call for help, and source, whether it is read or not. -/
theorem respond_of_other (h : said line ∉ [":json", ":pretty", ":shebang", ":quit", ":exit"])
    (s : Session) : (s.respond line).next = some s := by
  simp only [List.mem_cons, List.not_mem_nil, or_false, not_or] at h
  obtain ⟨hjson, hpretty, hshebang, hquit, hexit⟩ := h
  by_cases hblank : said line = ""
  · have hline : Entry.ofLine line = .blank := by
      simp only [Entry.ofLine, ← said.eq_1, if_pos hblank]
    simp only [respond, hline]
  by_cases hhelp : said line = ":help"
  · have hline : Entry.ofLine line = .command .help := ofLine_of_command (by rw [hhelp]; rfl)
    simp only [respond, hline]
  · have hnone : Command.ofText? (said line) = none := by
      simp only [Command.ofText?, if_neg hhelp, if_neg hjson, if_neg hpretty, if_neg hshebang,
        if_neg (not_or.2 ⟨hquit, hexit⟩)]
    have hline : Entry.ofLine line = .source (said line) := by
      simp only [Entry.ofLine, ← said.eq_1, if_neg hblank, hnone]
    cases hread : readWith s.options (said line) <;> simp only [respond, hline, hread]

/-- All that a line of input can do to the state. -/
theorem respond_cases (s : Session) (line : String) :
    (said line = ":json" ∧ (s.respond line).next = some (s.toggle .json)) ∨
    (said line = ":pretty" ∧ (s.respond line).next = some (s.toggle .prettyJson)) ∨
    (said line = ":shebang" ∧
      (s.respond line).next = some { s with skipShebang := !s.skipShebang }) ∨
    (Quits line ∧ s.respond line = ⟨[farewell], none⟩) ∨
    (said line ∉ [":json", ":pretty", ":shebang", ":quit", ":exit"] ∧
      (s.respond line).next = some s) := by
  by_cases hjson : said line = ":json"
  · have hline : Entry.ofLine line = .command .toggleJson := ofLine_of_command (by rw [hjson]; rfl)
    exact Or.inl ⟨hjson, by simp only [respond, hline]⟩
  by_cases hpretty : said line = ":pretty"
  · have hline : Entry.ofLine line = .command .togglePretty :=
      ofLine_of_command (by rw [hpretty]; rfl)
    exact Or.inr (Or.inl ⟨hpretty, by simp only [respond, hline]⟩)
  by_cases hshebang : said line = ":shebang"
  · have hline : Entry.ofLine line = .command .toggleShebang :=
      ofLine_of_command (by rw [hshebang]; rfl)
    exact Or.inr (Or.inr (Or.inl ⟨hshebang, by simp only [respond, hline]⟩))
  by_cases hquits : Quits line
  · exact Or.inr (Or.inr (Or.inr (Or.inl ⟨hquits, respond_of_quits hquits s⟩)))
  · have hother : said line ∉ [":json", ":pretty", ":shebang", ":quit", ":exit"] := by
      unfold Quits at hquits
      simp [hjson, hpretty, hshebang, not_or.1 hquits]
    exact Or.inr (Or.inr (Or.inr (Or.inr ⟨hother, respond_of_other hother s⟩)))

end Line

/-! ## Histories -/

/-- The longest run of `t` at the end of the texts has an odd length. -/
def RunOdd (t : String) (ts : List String) : Prop := Odd (ts.rtakeWhile (· = t)).length

instance (t : String) (ts : List String) : Decidable (RunOdd t ts) :=
  inferInstanceAs (Decidable (Odd _))

theorem runOdd_nil (t : String) : ¬RunOdd t [] := by
  rw [RunOdd, List.rtakeWhile_nil]
  exact Nat.not_odd_zero

theorem runOdd_concat_self (t : String) (ts : List String) :
    RunOdd t (ts ++ [t]) ↔ ¬RunOdd t ts := by
  unfold RunOdd
  rw [List.rtakeWhile_concat_pos _ _ _ (by simp), List.length_append]
  exact Nat.odd_add_one

theorem runOdd_concat_ne {t u : String} (h : u ≠ t) (ts : List String) :
    ¬RunOdd t (ts ++ [u]) := by
  rw [RunOdd, List.rtakeWhile_concat_neg _ _ _ (by simpa using h)]
  exact Nat.not_odd_zero

/-- Those of the lines that turn the output mode. -/
def toggles (lines : List String) : List String :=
  (lines.map said).filter fun t => t = ":json" ∨ t = ":pretty"

theorem toggles_concat (lines : List String) (line : String) :
    toggles (lines ++ [line]) =
      toggles lines ++ if said line = ":json" ∨ said line = ":pretty" then [said line] else [] := by
  simp [toggles, List.filter_singleton]

/-- Turning a mode follows the run of its own command, and ends that of the other. -/
theorem mode_toggle {s : Session} {m m' : OutputMode} {t t' : String} {ts : List String}
    (hm : m ≠ .source) (hm' : m' ≠ .source) (hmodes : m ≠ m') (htexts : t ≠ t')
    (h : s.mode = m ↔ RunOdd t ts) :
    ((s.toggle m).mode = m ↔ RunOdd t (ts ++ [t])) ∧
      ((s.toggle m).mode = m' ↔ RunOdd t' (ts ++ [t])) := by
  have hself : (s.toggle m).mode = m ↔ s.mode ≠ m := by
    unfold toggle
    by_cases hmode : s.mode = m
    · simp [hmode, hm.symm]
    · simp [hmode]
  have hother : (s.toggle m).mode ≠ m' := by
    unfold toggle
    by_cases hmode : s.mode = m
    · simp [hmode, hm'.symm]
    · simp [hmode, hmodes]
  constructor
  · rw [hself, runOdd_concat_self, Ne, h]
  · exact iff_of_false hother (runOdd_concat_ne htexts ts)

/-- The state behind the lines of a history, told from its commands. -/
structure Follows (s : Session) (lines : List String) : Prop where
  shebang : s.skipShebang = true ↔ Even ((lines.map said).count ":shebang")
  json : s.mode = .json ↔ RunOdd ":json" (toggles lines)
  pretty : s.mode = .prettyJson ↔ RunOdd ":pretty" (toggles lines)

theorem follows_nil : Follows {} [] where
  shebang := by simp
  json := by simp [toggles, runOdd_nil]
  pretty := by simp [toggles, runOdd_nil]

/-- The source mode is in force behind all other histories. -/
theorem Follows.source {s : Session} {lines : List String} (h : Follows s lines) :
    s.mode = .source ↔ ¬RunOdd ":json" (toggles lines) ∧ ¬RunOdd ":pretty" (toggles lines) := by
  rw [← h.json, ← h.pretty]
  cases s.mode <;> simp

theorem count_shebang_concat (lines : List String) (line : String) :
    ((lines ++ [line]).map said).count ":shebang" =
      (lines.map said).count ":shebang" + if said line = ":shebang" then 1 else 0 := by
  simp [List.count_singleton]

/-- One more line takes the state behind a history to the state behind the longer one. -/
theorem Follows.respond {s t : Session} {lines : List String} {line : String}
    (h : Follows s lines) (hnext : (s.respond line).next = some t) :
    Follows t (lines ++ [line]) := by
  have hcount := count_shebang_concat lines line
  have htoggles := toggles_concat lines line
  rcases respond_cases s line with ⟨hsaid, hs⟩ | ⟨hsaid, hs⟩ | ⟨hsaid, hs⟩ | ⟨_, hs⟩ | ⟨hsaid, hs⟩
  · obtain rfl := Option.some.inj (hs.symm.trans hnext)
    rw [hsaid, if_neg (by decide), Nat.add_zero] at hcount
    rw [hsaid, if_pos (by decide)] at htoggles
    obtain ⟨hjson, hpretty⟩ := @mode_toggle s .json .prettyJson ":json" ":pretty" _ (by decide)
      (by decide) (by decide) (by decide) h.json
    rw [← htoggles] at hjson hpretty
    exact ⟨by rw [hcount]; exact h.shebang, hjson, hpretty⟩
  · obtain rfl := Option.some.inj (hs.symm.trans hnext)
    rw [hsaid, if_neg (by decide), Nat.add_zero] at hcount
    rw [hsaid, if_pos (by decide)] at htoggles
    obtain ⟨hpretty, hjson⟩ := @mode_toggle s .prettyJson .json ":pretty" ":json" _ (by decide)
      (by decide) (by decide) (by decide) h.pretty
    rw [← htoggles] at hjson hpretty
    exact ⟨by rw [hcount]; exact h.shebang, hjson, hpretty⟩
  · obtain rfl := Option.some.inj (hs.symm.trans hnext)
    rw [hsaid, if_pos rfl] at hcount
    rw [hsaid, if_neg (by decide), List.append_nil] at htoggles
    refine ⟨?_, by rw [htoggles]; exact h.json, by rw [htoggles]; exact h.pretty⟩
    rw [hcount, Nat.even_add_one, ← h.shebang]
    simp
  · rw [hs] at hnext
    exact absurd hnext (by simp)
  · obtain rfl := Option.some.inj (hs.symm.trans hnext)
    obtain ⟨hjson, hpretty, hshebang⟩ : said line ≠ ":json" ∧ said line ≠ ":pretty" ∧
        said line ≠ ":shebang" := by
      simp only [List.mem_cons, not_or] at hsaid
      exact ⟨hsaid.1, hsaid.2.1, hsaid.2.2.1⟩
    rw [if_neg hshebang, Nat.add_zero] at hcount
    rw [if_neg (by simp [hjson, hpretty]), List.append_nil] at htoggles
    exact ⟨by rw [hcount]; exact h.shebang, by rw [htoggles]; exact h.json,
      by rw [htoggles]; exact h.pretty⟩

theorem stateAfter_concat (s : Session) (lines : List String) (line : String) :
    s.stateAfter (lines ++ [line]) = (s.stateAfter lines).bind fun t => (t.respond line).next := by
  induction lines generalizing s with
  | nil =>
    simp only [List.nil_append, stateAfter, Option.bind_some]
    cases (s.respond line).next <;> rfl
  | cons first lines ih =>
    simp only [List.cons_append, stateAfter]
    cases (s.respond first).next with
    | none => rfl
    | some t => exact ih t

/-- Only some lines end a session. -/
theorem exists_next {line : String} (h : ¬Quits line) (s : Session) :
    ∃ t, (s.respond line).next = some t := by
  rcases respond_cases s line with ⟨_, hs⟩ | ⟨_, hs⟩ | ⟨_, hs⟩ | ⟨hquits, _⟩ | ⟨_, hs⟩
  · exact ⟨_, hs⟩
  · exact ⟨_, hs⟩
  · exact ⟨_, hs⟩
  · exact absurd hquits h
  · exact ⟨_, hs⟩

/-- Lines that do not end a session lead to a state, and the state follows its history. -/
theorem exists_stateAfter {lines : List String} (h : ∀ line ∈ lines, ¬Quits line) :
    ∃ s, stateAfter {} lines = some s ∧ Follows s lines := by
  -- runs of commands grow at the end of a history, so lines are taken off the end
  induction lines using List.reverseRecOn with
  | nil => exact ⟨{}, rfl, follows_nil⟩
  | append_singleton lines line ih =>
    obtain ⟨s, hs, hfollows⟩ := ih fun l hl => h l (List.mem_append_left _ hl)
    obtain ⟨t, ht⟩ := exists_next (h line (by simp)) s
    refine ⟨t, ?_, hfollows.respond ht⟩
    rw [stateAfter_concat, hs]
    exact ht

/-! ## The end of a session -/

/-- Lines behind one that ends a session are not looked at, and the output is that of a
session whose input ends there. -/
theorem run_of_quits {line : String} (h : Quits line) (s : Session) (before after : List String) :
    s.run (before ++ line :: after) = s.run before := by
  induction before generalizing s with
  | nil => simp only [List.nil_append, run, respond_of_quits h]
  | cons first before ih =>
    simp only [List.cons_append, run]
    cases s.respond first with
    | mk out next =>
      cases next with
      | none => rfl
      | some t => simp only [ih]

/-- Whatever it is told, a session ends with the farewell. -/
theorem exists_run (s : Session) (lines : List String) :
    ∃ front, s.run lines = front ++ unlines [farewell] := by
  induction lines generalizing s with
  | nil => exact ⟨prompt, rfl⟩
  | cons line lines ih =>
    by_cases hquits : Quits line
    · exact ⟨prompt, by simp only [run, respond_of_quits hquits]⟩
    · obtain ⟨t, ht⟩ := exists_next hquits s
      obtain ⟨front, hfront⟩ := ih t
      have hreply : s.respond line = ⟨(s.respond line).lines, some t⟩ := by rw [← ht]
      refine ⟨prompt ++ unlines (s.respond line).lines ++ front, ?_⟩
      rw [run, hreply]
      simp only [hfront, String.append_assoc]

/-! ## Breaking off -/

/- Breaking off is the failure of an index, of a cut or of a subtraction.  Outside of
lookups these cannot fail.  The rules of the grammar cut a text only behind characters
that they have matched, and an error is explained by cuts at the place where a rule
stopped, which is a place of the text by `Cursor.Reaches`.  Trees are bounded in depth by
the limit that they were read under.  Output that cannot be written is left out. -/

/-- A lookup fails while the line is read.  Besides the places that reading reports it may
look up any others between characters before them, since it gives up trees that it has
begun. -/
def BreaksOff (s : Session) (line : String) : Prop :=
  ∃ text, Entry.ofLine line = .source text ∧
    ∃ pasts : List (List Char), (∀ past ∈ pasts, past <+: text.toList) ∧
      (LineIndex.ofText text.toList).lookups? .start
        (pasts.map width ++ (EntryPoint.program s.options).reported text.toList) = none

/-- The codes with which a session may exit: 1 where it breaks off, and 0 where it ends by a
command or with its input. -/
inductive Exits : Session → List String → Nat → Prop
  | input (s : Session) : Exits s [] 0
  | command {s : Session} {line : String} (lines : List String) :
      (s.respond line).next = none → Exits s (line :: lines) 0
  | goesOn {s t : Session} {line : String} {lines : List String} {code : Nat} :
      (s.respond line).next = some t → Exits t lines code → Exits s (line :: lines) code
  | broken {s : Session} {line : String} (lines : List String) :
      s.BreaksOff line → Exits s (line :: lines) 1

theorem not_breaksOff (s : Session) (line : String) : ¬s.BreaksOff line := by
  rintro ⟨text, _, pasts, hpasts, hnone⟩
  obtain ⟨pasts', hpasts', hreported, _⟩ := (EntryPoint.program s.options).reported_eq text
  have hstart : Position.start.IsIn text.toList := ⟨[], text.toList, rfl, rfl⟩
  have hall : ∀ past ∈ pasts ++ pasts', past <+: text.toList := by
    intro past hpast
    rcases List.mem_append.1 hpast with hpast | hpast
    · exact hpasts past hpast
    · exact hpasts' past hpast
  rw [hreported, ← List.map_append, LineIndex.lookups?_of_isIn hstart hall] at hnone
  exact absurd hnone (by simp)

theorem exits_iff (s : Session) (lines : List String) (code : Nat) :
    Exits s lines code ↔ code = 0 := by
  constructor
  · intro h
    induction h with
    | input | command => rfl
    | goesOn _ _ ih => exact ih
    | broken _ hbroken => exact absurd hbroken (not_breaksOff _ _)
  · rintro rfl
    induction lines generalizing s with
    | nil => exact .input s
    | cons line lines ih =>
      cases hnext : (s.respond line).next with
      | none => exact .command lines hnext
      | some t => exact .goesOn hnext (ih t)

/-! ## Sessions -/

/-- Up to a line that ends it a session is in a state that its commands decide, and only
these commands change the state.  Nothing behind a line that ends the session is looked
at.  Every session exits without an error and ends with the farewell. -/
theorem transcript_history :
    (∀ before after : List String, (∀ line ∈ before, ¬Quits line) →
      ∃ s, stateAfter {} before = some s ∧
        transcript (before ++ after) = unlines greeting ++ (answers {} before ++ s.run after) ∧
        Follows s before ∧
        (s.mode = .source ↔
          ¬RunOdd ":json" (toggles before) ∧ ¬RunOdd ":pretty" (toggles before))) ∧
    (∀ (s : Session) (line : String),
      said line ∉ [":json", ":pretty", ":shebang", ":quit", ":exit"] →
        (s.respond line).next = some s) ∧
    (∀ (before : List String) (line : String) (after : List String), Quits line →
      transcript (before ++ line :: after) = transcript before) ∧
    ∀ lines : List String, (∀ code, Exits {} lines code ↔ code = 0) ∧
      ∃ front, transcript lines = front ++ "Goodbye!\n" := by
  refine ⟨?_, fun s _ h => respond_of_other h s, ?_, fun lines => ⟨exits_iff {} lines, ?_⟩⟩
  · intro before after h
    obtain ⟨s, hs, hfollows⟩ := exists_stateAfter h
    refine ⟨s, hs, ?_, hfollows, hfollows.source⟩
    rw [transcript, run_append hs]
  · intro before line after h
    rw [transcript, transcript, run_of_quits h]
  · obtain ⟨front, hfront⟩ := exists_run {} lines
    refine ⟨unlines greeting ++ front, ?_⟩
    have hfarewell : unlines [farewell] = "Goodbye!\n" := by decide +kernel
    rw [transcript, hfront, hfarewell, String.append_assoc]

/-- Three equal commands at the end of a history, with other lines among them, a line that
is not read, and a line that ends a session. -/
theorem transcript_history_toggles :
    (∃ s, stateAfter {} [":shebang", " :json", ":pretty\t", ":help", ":pretty", "(", "", ":pretty"]
        = some s ∧ s.mode = .prettyJson ∧ s.skipShebang = false) ∧
    (respond ⟨.json, true⟩ " (a").next = some ⟨.json, true⟩ ∧
    transcript ["a", " :exit ", ":json", "b"] = transcript ["a"] := by
  obtain ⟨hstate, hother, hquits, _⟩ := transcript_history
  refine ⟨?_, ?_, ?_⟩
  · obtain ⟨s, hs, _, hfollows, _⟩ := hstate
      [":shebang", " :json", ":pretty\t", ":help", ":pretty", "(", "", ":pretty"] ["b"]
      (by decide +kernel)
    have hshebang : ¬s.skipShebang = true := by
      rw [hfollows.shebang]
      decide +kernel
    exact ⟨s, hs, hfollows.pretty.2 (by decide +kernel), by simpa using hshebang⟩
  · exact hother ⟨.json, true⟩ " (a" (by decide +kernel)
  · exact hquits ["a"] " :exit " [":json", "b"] (by decide +kernel)

end Session
end LispSyntax
