/-
Repetitions that take something at every turn.

A repetition reads a piece as often as it matches.  A piece that matches and takes no
character would match for ever, so a repetition is guarded: it gives up, stuck, when that
happens.  `Repeats` follows a repetition turn by turn, the guard included and without a
bound on the turns.

If no match of a piece is empty, every repetition of it comes to an end, to one only, and
the guard never fires: this is `exists_settles`.  Gaps, the characters of atoms and the
characters of strings are repetitions of such pieces, although a comment at the end of the
text takes nothing for the end of its line.
-/
import LispSyntax.Proofs.Tokens

namespace LispSyntax
namespace Grammar

open Text

/-- How a repetition ends. -/
inductive Ending (σ : Type) where
  /-- The piece declines at `stop`, and `value` has been collected. -/
  | ended (value : σ) (stop : Cursor)
  /-- The piece fails. -/
  | failed (stall : Stall)
  /-- The piece matches at the cursor and takes nothing, which the guard does not let
  pass. -/
  | stuck (place : Cursor)

section Repetition

variable {α σ : Type}

/-- One turn of a repetition that has collected `v` so far: it ends, or goes on from
another cursor with more collected. -/
def turn (piece : Cursor → Outcome α) (add : σ → α → σ) (v : σ) (c : Cursor) :
    Ending σ ⊕ σ × Cursor :=
  match piece c with
  | .matched a next =>
    if next.rest.length = c.rest.length then .inl (.stuck c) else .inr (add v a, next)
  | .declined _ => .inl (.ended v c)
  | .failed s => .inl (.failed s)

/-- Repeating the piece from a cursor ends in the given way. -/
inductive Repeats (piece : Cursor → Outcome α) (add : σ → α → σ) :
    σ → Cursor → Ending σ → Prop where
  | last {v : σ} {c : Cursor} {e : Ending σ} (step : turn piece add v c = .inl e) :
      Repeats piece add v c e
  | again {v w : σ} {c next : Cursor} {e : Ending σ} (step : turn piece add v c = .inr (w, next))
      (rest : Repeats piece add w next e) : Repeats piece add v c e

/-- The repetition comes to the end `e` and to no other, and its guard does not fire. -/
structure Settles (piece : Cursor → Outcome α) (add : σ → α → σ) (v : σ) (c : Cursor)
    (e : Ending σ) : Prop where
  repeats : Repeats piece add v c e
  unique : ∀ e', Repeats piece add v c e' → e' = e
  not_stuck : ∀ place, e ≠ .stuck place

variable {piece : Cursor → Outcome α} {add : σ → α → σ} {v w : σ} {c next : Cursor}
  {e e' : Ending σ}

theorem Repeats.unique (h : Repeats piece add v c e) (h' : Repeats piece add v c e') :
    e' = e := by
  induction h with
  | last step =>
    cases h' with
    | last step' => exact Sum.inl.inj (step'.symm.trans step)
    | again step' => exact absurd (step'.symm.trans step) (by simp)
  | again step rest ih =>
    cases h' with
    | last step' => exact absurd (step'.symm.trans step) (by simp)
    | again step' rest' =>
      obtain ⟨rfl, rfl⟩ := Prod.mk.inj (Sum.inr.inj (step'.symm.trans step))
      exact ih rest'

section Progress

variable (hpiece : ∀ c, (piece c).From c)
include hpiece

theorem length_lt_of_matched {a : α} (h : piece c = .matched a next) :
    next.rest.length < c.rest.length := by
  have hfrom := hpiece c
  rw [h] at hfrom
  exact Cursor.Passes.length_lt hfrom

/-- If no match of the piece is empty, a turn never comes to the guard. -/
theorem turn_eq (v : σ) (c : Cursor) :
    turn piece add v c =
      match piece c with
      | .matched a next => .inr (add v a, next)
      | .declined _ => .inl (.ended v c)
      | .failed s => .inl (.failed s) := by
  unfold turn
  split
  · next a next hmatched =>
    exact if_neg (Nat.ne_of_lt (length_lt_of_matched hpiece hmatched))
  · rfl
  · rfl

theorem turn_ne_stuck (place : Cursor) : turn piece add v c ≠ .inl (.stuck place) := by
  rw [turn_eq hpiece]
  split <;> simp

theorem length_lt_of_turn (h : turn piece add v c = .inr (w, next)) :
    next.rest.length < c.rest.length := by
  rw [turn_eq hpiece] at h
  split at h
  · next a next' hmatched =>
    obtain ⟨_, rfl⟩ := Prod.mk.inj (Sum.inr.inj h)
    exact length_lt_of_matched hpiece hmatched
  · simp at h
  · simp at h

theorem exists_repeats (v : σ) (c : Cursor) : ∃ e, Repeats piece add v c e := by
  induction hn : c.rest.length using Nat.strongRecOn generalizing v c with
  | ind n ih =>
    cases hstep : turn piece add v c with
    | inl e => exact ⟨e, .last hstep⟩
    | inr p =>
      obtain ⟨w, next⟩ := p
      have hlt := length_lt_of_turn hpiece hstep
      obtain ⟨e, he⟩ := ih next.rest.length (hn ▸ hlt) w next rfl
      exact ⟨e, .again hstep he⟩

theorem Repeats.not_stuck (h : Repeats piece add v c e) (place : Cursor) : e ≠ .stuck place := by
  induction h with
  | last step =>
    rintro rfl
    exact turn_ne_stuck hpiece place step
  | again step rest ih => exact ih

/-- A repetition of a piece with no empty match ends, in one way, and its guard never
fires. -/
theorem exists_settles (v : σ) (c : Cursor) : ∃ e, Settles piece add v c e := by
  obtain ⟨e, he⟩ : ∃ e, Repeats piece add v c e := exists_repeats hpiece v c
  exact ⟨e, he, fun e' he' => he.unique he', he.not_stuck hpiece⟩

end Progress

/-- What is made of the end of a repetition by a rule that goes on with `close`.  Nothing
is made of a repetition that is stuck. -/
def Ending.outcome {β : Type} (close : σ → Cursor → Outcome β) : Ending σ → Option (Outcome β)
  | .ended v stop => some (close v stop)
  | .failed s => some (.failed s)
  | .stuck _ => none

/-- The function `run` goes on behind every match of the piece with what that adds, and
with `close` where the piece declines. -/
structure RunsBy {β : Type} (piece : Cursor → Outcome α) (add : σ → α → σ)
    (close run : σ → Cursor → Outcome β) : Prop where
  matched : ∀ v c a next, piece c = .matched a next → run v c = run (add v a) next
  declined : ∀ v c s, piece c = .declined s → run v c = close v c
  failed : ∀ v c s, piece c = .failed s → run v c = .failed s

/-- Such a function comes to what the repetition comes to. -/
theorem RunsBy.outcome_eq {β : Type} {close run : σ → Cursor → Outcome β}
    (h : RunsBy piece add close run) (hpiece : ∀ c, (piece c).From c)
    (he : Repeats piece add v c e) : e.outcome close = some (run v c) := by
  induction he with
  | @last v c e step =>
    rw [turn_eq hpiece] at step
    cases hturn : piece c with
    | matched a next => simp [hturn] at step
    | declined s =>
      obtain rfl : .ended v c = e := by simpa [hturn] using step
      rw [h.declined v c s hturn]
      rfl
    | failed s =>
      obtain rfl : .failed s = e := by simpa [hturn] using step
      rw [h.failed v c s hturn]
      rfl
  | @again v w c next e step rest ih =>
    rw [turn_eq hpiece] at step
    cases hturn : piece c with
    | matched a next' =>
      obtain ⟨rfl, rfl⟩ : add v a = w ∧ next' = next := by simpa [hturn] using step
      rw [ih, h.matched v c a next' hturn]
    | declined s => simp [hturn] at step
    | failed s => simp [hturn] at step

/-- Tries one piece, and another where that declines. -/
def either (p q : Cursor → Outcome α) : Cursor → Outcome α := fun c =>
  match p c with
  | .declined _ => q c
  | other => other

theorem either_from {p q : Cursor → Outcome α} (hp : (p c).From c) (hq : (q c).From c) :
    (either p q c).From c := by
  unfold either
  split
  · exact hq
  · exact hp

end Repetition

/-! ## Gaps -/

/-- Reads one blank or more. -/
def blanks : Cursor → Outcome Unit := fun c =>
  if c.rest.takeWhile isBlank = [] then .declined ⟨c, .noExpression⟩
  else .matched () ⟨c.offset + width (c.rest.takeWhile isBlank), c.rest.dropWhile isBlank⟩

/-- Reads a comment.  The end of the text may stand for the end of the line. -/
def comment : Cursor → Outcome Unit := fun c =>
  match c.rest with
  | ';' :: cs => .matched () (skipLine (c.offset + 1) cs)
  | _ => .declined ⟨c, .noExpression⟩

/-- Reads the next part of a gap.  Why there is none is never asked. -/
def gapPiece : Cursor → Outcome Unit := either blanks comment

theorem blanks_from (c : Cursor) : (blanks c).From c := by
  unfold blanks
  split
  · exact .refl c
  · next hne => exact ⟨_, hne, List.takeWhile_append_dropWhile.symm, rfl⟩

theorem comment_from (c : Cursor) : (comment c).From c := by
  obtain ⟨o, rest⟩ := c
  unfold comment
  split
  · next cs hrest =>
    obtain rfl : rest = ';' :: cs := hrest
    exact (Cursor.passes_cons o ';' cs).trans_reaches (skipLine_reaches (o + 1) cs)
  · exact .refl _

theorem gapPiece_from (c : Cursor) : (gapPiece c).From c :=
  either_from (blanks_from c) (comment_from c)

theorem skipGap_takeWhile (o : Nat) (cs : List Char) :
    skipGap false (o + width (cs.takeWhile isBlank)) (cs.dropWhile isBlank) =
      skipGap false o cs := by
  induction cs generalizing o with
  | nil => rfl
  | cons a as ih =>
    by_cases ha : isBlank a = true
    · have hskip : skipGap false o (a :: as) = skipGap false (o + a.utf8Size) as := by
        rw [skipGap, if_neg (by simp), if_pos ha]
      rw [List.takeWhile_cons_of_pos ha, List.dropWhile_cons_of_pos ha, width_cons,
        ← Nat.add_assoc, ih, hskip]
    · rw [List.takeWhile_cons_of_neg ha, List.dropWhile_cons_of_neg ha]
      rfl

theorem pastGap_of_blanks {c next : Cursor} (h : blanks c = .matched () next) :
    c.pastGap = next.pastGap := by
  unfold blanks at h
  split at h
  · simp at h
  · obtain ⟨_, rfl⟩ := Outcome.matched.inj h
    exact (skipGap_takeWhile c.offset c.rest).symm

theorem pastGap_of_comment {c next : Cursor} (h : comment c = .matched () next) :
    c.pastGap = next.pastGap := by
  obtain ⟨o, rest⟩ := c
  unfold comment at h
  split at h
  · next cs hrest =>
    obtain rfl : rest = ';' :: cs := hrest
    obtain ⟨_, rfl⟩ := Outcome.matched.inj h
    exact skipGap_comment (o + 1) cs
  · simp at h

/-- Where no part of a gap is read, no gap goes on. -/
theorem endsGap_of_gapPiece {c : Cursor} {s : Stall} (h : gapPiece c = .declined s) :
    EndsGap c.rest := by
  obtain ⟨o, rest⟩ := c
  intro a ha
  obtain ⟨as, rfl⟩ : ∃ as, rest = a :: as := List.head?_eq_some_iff.1 ha
  have hblank : isBlank a = false := by
    cases hblank : isBlank a with
    | false => rfl
    | true => simp [gapPiece, either, blanks, hblank] at h
  refine ⟨hblank, ?_⟩
  rintro rfl
  simp [gapPiece, either, blanks, comment, hblank] at h

theorem gapPiece_ne_failed (c : Cursor) (s : Stall) : gapPiece c ≠ .failed s := by
  unfold gapPiece either blanks comment
  grind

theorem runsBy_gap : RunsBy gapPiece (fun _ _ => ()) (fun _ stop => .matched () stop)
    (fun _ c => .matched () c.pastGap) where
  matched _ c _ next h := by
    have heither : blanks c = .matched () next ∨ comment c = .matched () next := by
      unfold gapPiece either at h
      split at h
      · exact Or.inr h
      · exact Or.inl h
    rcases heither with hblanks | hcomment
    · rw [pastGap_of_blanks hblanks]
    · rw [pastGap_of_comment hcomment]
  declined _ c _ h := by rw [Cursor.pastGap_of_endsGap (endsGap_of_gapPiece h)]
  failed _ c s h := absurd h (gapPiece_ne_failed c s)

/-- Skipping a gap is a repetition that ends, and never fails. -/
theorem settles_gap (c : Cursor) :
    Settles gapPiece (fun _ _ => ()) () c (.ended () c.pastGap) := by
  obtain ⟨e, he⟩ : ∃ e, Settles gapPiece (fun _ _ => ()) () c e :=
    exists_settles gapPiece_from () c
  have houtcome := runsBy_gap.outcome_eq gapPiece_from he.repeats
  cases e with
  | ended v stop =>
    obtain ⟨_, rfl⟩ := Outcome.matched.inj (Option.some.inj houtcome)
    exact he
  | failed s => simp [Ending.outcome] at houtcome
  | stuck place => simp [Ending.outcome] at houtcome

/-! ## Characters of tokens -/

section Characters

variable {plain : Char → Bool} {decode : Char → Option Char} {unknown last missing : Cause}
  {c : Cursor}

/-- Reads a backslash and the character behind it, which `decode` gives a meaning. -/
def escape (decode : Char → Option Char) (unknown last missing : Cause) :
    Cursor → Outcome Char := fun c =>
  match c.rest with
  | '\\' :: letter :: cs =>
    match decode letter with
    | some a => .matched a ⟨c.offset + 1 + letter.utf8Size, cs⟩
    | none => .failed ⟨⟨c.offset + 1, letter :: cs⟩, unknown⟩
  | ['\\'] => .failed ⟨⟨c.offset + 1, []⟩, last⟩
  | _ => .declined ⟨c, missing⟩

/-- Reads one character that stands for itself. -/
def character (plain : Char → Bool) (missing : Cause) : Cursor → Outcome Char := fun c =>
  match c.rest with
  | a :: cs =>
    if plain a then .matched a ⟨c.offset + a.utf8Size, cs⟩ else .declined ⟨c, missing⟩
  | [] => .declined ⟨c, missing⟩

theorem escape_from (c : Cursor) : (escape decode unknown last missing c).From c := by
  obtain ⟨o, rest⟩ := c
  unfold escape
  split
  · next letter cs hrest =>
    obtain rfl : rest = '\\' :: letter :: cs := hrest
    split
    · exact (Cursor.passes_cons o '\\' (letter :: cs)).trans_reaches
        (Cursor.passes_cons (o + 1) letter cs).reaches
    · exact (Cursor.passes_cons o '\\' (letter :: cs)).reaches
  · next hrest =>
    obtain rfl : rest = ['\\'] := hrest
    exact (Cursor.passes_cons o '\\' []).reaches
  · exact .refl _

theorem character_from (c : Cursor) : (character plain missing c).From c := by
  obtain ⟨o, rest⟩ := c
  unfold character
  split
  · next a cs hrest =>
    obtain rfl : rest = a :: cs := hrest
    split
    · exact Cursor.passes_cons o a cs
    · exact .refl _
  · exact .refl _

theorem escape_of_head (h : c.rest.head? ≠ some '\\') :
    escape decode unknown last missing c = .declined ⟨c, missing⟩ := by
  unfold escape
  split
  · next hrest => rw [hrest] at h; exact absurd rfl h
  · next hrest => rw [hrest] at h; exact absurd rfl h
  · rfl

/-- Reads the next character of a token. -/
def tokenPiece (plain : Char → Bool) (decode : Char → Option Char)
    (unknown last missing : Cause) : Cursor → Outcome Char :=
  either (escape decode unknown last missing) (character plain missing)

theorem tokenPiece_from (c : Cursor) : (tokenPiece plain decode unknown last missing c).From c :=
  either_from (escape_from c) (character_from c)

/-- What the next character of a token comes to at `c`, by the text there. -/
inductive PieceOutcome (plain : Char → Bool) (decode : Char → Option Char)
    (unknown last missing : Cause) (c : Cursor) : Outcome Char → Prop where
  /-- The character stands for itself. -/
  | itself {a : Char} {next : Cursor} (legal : plain a = true) (ahead : c.Over [a] next) :
      PieceOutcome plain decode unknown last missing c (.matched a next)
  /-- The character is escaped. -/
  | escaped {letter a : Char} {next : Cursor} (legal : decode letter = some a)
      (ahead : c.Over ['\\', letter] next) :
      PieceOutcome plain decode unknown last missing c (.matched a next)
  /-- A backslash escapes nothing. -/
  | lone {next : Cursor} (ahead : c.Over ['\\'] next)
      (nothing : ∀ a ∈ next.rest.head?, decode a = none) :
      PieceOutcome plain decode unknown last missing c
        (.failed ⟨next, if next.rest = [] then last else unknown⟩)
  /-- No character of the token comes next. -/
  | nothing (ends : ∀ a ∈ c.rest.head?, plain a = false ∧ a ≠ '\\') :
      PieceOutcome plain decode unknown last missing c (.declined ⟨c, missing⟩)

theorem tokenPiece_outcome (c : Cursor) :
    PieceOutcome plain decode unknown last missing c
      (tokenPiece plain decode unknown last missing c) := by
  obtain ⟨o, rest⟩ := c
  by_cases hhead : rest.head? = some '\\'
  · obtain ⟨cs, rfl⟩ := List.head?_eq_some_iff.1 hhead
    have hslash : Cursor.Over ⟨o, '\\' :: cs⟩ ['\\'] ⟨o + 1, cs⟩ := ⟨rfl, rfl⟩
    cases cs with
    | nil => exact .lone hslash (by simp)
    | cons letter cs =>
      cases hdecode : decode letter with
      | some a =>
        have hover : Cursor.Over ⟨o, '\\' :: letter :: cs⟩ ['\\', letter]
            ⟨o + 1 + letter.utf8Size, cs⟩ := hslash.trans ⟨rfl, rfl⟩
        have hpiece : tokenPiece plain decode unknown last missing ⟨o, '\\' :: letter :: cs⟩ =
            .matched a ⟨o + 1 + letter.utf8Size, cs⟩ := by
          simp [tokenPiece, either, escape, hdecode]
        rw [hpiece]
        exact .escaped hdecode hover
      | none =>
        have hpiece : tokenPiece plain decode unknown last missing ⟨o, '\\' :: letter :: cs⟩ =
            .failed ⟨⟨o + 1, letter :: cs⟩, unknown⟩ := by
          simp [tokenPiece, either, escape, hdecode]
        rw [hpiece]
        exact .lone hslash (by simpa using hdecode)
  · have hpiece : tokenPiece plain decode unknown last missing ⟨o, rest⟩ =
        character plain missing ⟨o, rest⟩ := by
      simp only [tokenPiece, either, escape_of_head (c := ⟨o, rest⟩) hhead]
    rw [hpiece]
    cases rest with
    | nil => exact .nothing (by simp)
    | cons a as =>
      cases ha : plain a with
      | true =>
        have hmatched : character plain missing ⟨o, a :: as⟩ =
            .matched a ⟨o + a.utf8Size, as⟩ := if_pos ha
        rw [hmatched]
        exact .itself ha ⟨rfl, rfl⟩
      | false =>
        have hdeclined : character plain missing ⟨o, a :: as⟩ =
            .declined ⟨⟨o, a :: as⟩, missing⟩ := if_neg (by simp [ha])
        rw [hdeclined]
        refine .nothing fun b hb => ?_
        obtain rfl : a = b := by simpa using hb
        exact ⟨ha, fun heq => hhead (congrArg some heq)⟩

/-- A reader goes on piece by piece if it does so over each text that a piece may have. -/
theorem runsBy_tokenPiece {close run : List Char → Cursor → Outcome String}
    (hitself : ∀ done c a next, plain a = true → c.Over [a] next →
      run done c = run (a :: done) next)
    (hescaped : ∀ done c letter a next, decode letter = some a → c.Over ['\\', letter] next →
      run done c = run (a :: done) next)
    (hlone : ∀ done c next, c.Over ['\\'] next → (∀ a ∈ next.rest.head?, decode a = none) →
      run done c = .failed ⟨next, if next.rest = [] then last else unknown⟩)
    (hnothing : ∀ done c, (∀ a ∈ c.rest.head?, plain a = false ∧ a ≠ '\\') →
      run done c = close done c) :
    RunsBy (tokenPiece plain decode unknown last missing) (fun done a => a :: done) close run where
  matched done c a next h := by
    have hpiece := h ▸ tokenPiece_outcome c
    cases hpiece with
    | itself legal ahead => exact hitself done c a next legal ahead
    | escaped legal ahead => exact hescaped done c _ a next legal ahead
  declined done c s h := by
    have hpiece := h ▸ tokenPiece_outcome c
    cases hpiece with
    | nothing ends => exact hnothing done c ends
  failed done c s h := by
    have hpiece := h ▸ tokenPiece_outcome c
    cases hpiece with
    | lone ahead nothing => exact hlone done c _ ahead nothing

end Characters

/-! ## Atoms -/

/-- Reads the next character of an atom. -/
def atomPiece : Cursor → Outcome Char :=
  tokenPiece (fun a => !isReserved a) (fun a => if isReserved a then some a else none)
    .loneEscape .loneEscape .noAtom

theorem atomRun_of_unit {u : AtomUnit} (hu : u.Legal) {c next : Cursor}
    (h : c.Over u.text next) (done : List Char) :
    atomRun done c.offset c.rest = atomRun (u.char :: done) next.offset next.rest := by
  rw [h.1, h.2]
  exact atomRun_step u hu done c.offset next.rest

theorem runsBy_atom : RunsBy atomPiece (fun done a => a :: done) closeAtom
    (fun done c => atomRun done c.offset c.rest) := by
  refine runsBy_tokenPiece ?_ ?_ ?_ ?_
  · intro done c a next ha hover
    have hu : (AtomUnit.plain a).Legal := by simpa [AtomUnit.Legal] using ha
    exact atomRun_of_unit hu hover done
  · intro done c letter a next hdecode hover
    obtain ⟨hreserved, rfl⟩ : isReserved letter = true ∧ letter = a := by simpa using hdecode
    have hu : (AtomUnit.escaped letter).Legal := hreserved
    exact atomRun_of_unit hu hover done
  · intro done c next hover hnone
    rw [ite_self]
    exact atomRun_of_lone hover fun a ha => by simpa using hnone a ha
  · intro done c hnone
    exact atomRun_of_endsAtom fun a ha => by simpa using hnone a ha

/-- An atom is a repetition that ends, and the reader of atoms goes by its end. -/
theorem exists_settles_atom (c : Cursor) :
    ∃ e, Settles atomPiece (fun done a => a :: done) [] c e ∧
      e.outcome closeAtom = some (atomToken c) := by
  obtain ⟨e, he⟩ : ∃ e, Settles atomPiece (fun done a => a :: done) [] c e :=
    exists_settles tokenPiece_from [] c
  exact ⟨e, he, runsBy_atom.outcome_eq tokenPiece_from he.repeats⟩

/-! ## Strings -/

/-- Reads the next character of a string. -/
def stringPiece : Cursor → Outcome Char :=
  tokenPiece (fun a => a != '"' && a != '\\') escaped? .unknownEscape .openString .noString

/-- The string whose characters are `done`, in reverse, where no other follows. -/
def closeString (done : List Char) (c : Cursor) : Outcome String :=
  match c.rest with
  | '"' :: cs => .matched (String.ofList done.reverse) ⟨c.offset + 1, cs⟩
  | _ => .failed ⟨c, .openString⟩

theorem stringRun_of_unit {u : StringUnit} (hu : u.Legal) {c next : Cursor}
    (h : c.Over u.text next) (done : List Char) :
    stringRun done c.offset c.rest = stringRun (u.char :: done) next.offset next.rest := by
  rw [h.1, h.2]
  exact stringRun_step u hu done c.offset next.rest

theorem stringRun_close {c : Cursor} (h : c.rest = [] ∨ c.rest.head? = some '"')
    (done : List Char) : stringRun done c.offset c.rest = closeString done c := by
  obtain ⟨o, rest⟩ := c
  rcases h with hnil | hquote
  · obtain rfl : rest = [] := hnil
    rfl
  · obtain ⟨cs, rfl⟩ : ∃ cs, rest = '"' :: cs := List.head?_eq_some_iff.1 hquote
    simp only [stringRun, closeString]

theorem runsBy_string : RunsBy stringPiece (fun done a => a :: done) closeString
    (fun done c => stringRun done c.offset c.rest) := by
  refine runsBy_tokenPiece ?_ ?_ ?_ ?_
  · intro done c a next ha hover
    have hu : (StringUnit.plain a).Legal := by simpa [StringUnit.Legal] using ha
    exact stringRun_of_unit hu hover done
  · intro done c letter a next hdecode hover
    have hu : (StringUnit.escape letter a).Legal := hdecode
    exact stringRun_of_unit hu hover done
  · intro done c next hover hnone
    exact stringRun_of_lone hover hnone
  · intro done c hnone
    refine stringRun_close ?_ done
    cases hrest : c.rest with
    | nil => exact Or.inl rfl
    | cons a as =>
      obtain ⟨hplain, hslash⟩ := hnone a (by rw [hrest]; rfl)
      obtain rfl : a = '"' := by simpa [hslash] using hplain
      exact Or.inr rfl

/-- Behind its opening delimiter a string is a repetition that ends, and the reader of
strings goes by its end. -/
theorem exists_settles_string {c first : Cursor} (h : c.Over ['"'] first) :
    ∃ e, Settles stringPiece (fun done a => a :: done) [] first e ∧
      e.outcome closeString = some (stringToken c) := by
  obtain ⟨e, he⟩ : ∃ e, Settles stringPiece (fun done a => a :: done) [] first e :=
    exists_settles tokenPiece_from [] first
  have htoken : stringToken c = stringRun [] first.offset first.rest := by
    obtain ⟨hc, hfirst⟩ := h.eq_of_singleton
    rw [hc, hfirst]
    rfl
  refine ⟨e, he, ?_⟩
  rw [htoken]
  exact runsBy_string.outcome_eq tokenPiece_from he.repeats

end Grammar
end LispSyntax
