/-
The lines of a text, for looking up places in it.

An index lists where the lines start and which of them hold ASCII characters
alone.  A lookup finds the line of a byte offset among the starts.  The column
is a difference of offsets on an ASCII line.  On the line of the last lookup it
is counted from there, ahead or back, and on any other line from the start.

A lookup gives nothing where it would cut a character, leave the lines or count
below zero.  `lookup?_of_isIn` says that this never happens between two
characters, and `isIn_of_lookup?` that there is no place anywhere else in the
text.  Neither depends on what was looked up last.
-/
import LispSyntax.Position
import LispSyntax.Text.Bytes

namespace LispSyntax

open Text

/-! ## Places behind a text -/

namespace Position

theorem offset_after (p : Position) (cs : List Char) :
    (p.after cs).offset = p.offset + Text.width cs := by
  induction cs generalizing p with
  | nil => rfl
  | cons c cs ih => rw [after_cons, ih, offset_advance, Text.width_cons, Nat.add_assoc]

theorem offset_start_after (cs : List Char) :
    (start.after cs).offset = Text.width cs := by
  rw [offset_after]
  exact Nat.zero_add _

theorem line_after (p : Position) (cs : List Char) :
    (p.after cs).line = p.line + cs.count '\n' := by
  induction cs generalizing p with
  | nil => rfl
  | cons c cs ih =>
    rw [after_cons, ih, List.count_cons]
    unfold advance
    split
    · next hc =>
      simp only [hc, beq_self_eq_true, if_true]
      omega
    · next hc => simp [hc]

/-- The place lies in the source. -/
def IsIn (source : List Char) (p : Position) : Prop :=
  ∃ past behind, source = past ++ behind ∧ p = start.after past

end Position

/-! ## The index -/

/-- A line of a text, in an index of its lines. -/
structure LineIndex.Entry where
  /-- The byte offset at which the line starts. -/
  start : Nat
  /-- Every character of the line is an ASCII character. -/
  isAscii : Bool
  /-- The text from the start of the line on. -/
  text : List Char
  deriving DecidableEq, Repr

/-- The lines of a text in order, and how many bytes the text has. -/
structure LineIndex where
  entries : List LineIndex.Entry
  size : Nat
  deriving DecidableEq, Repr

namespace LineIndex

/-- The character is one of the 128 that take a single byte. -/
def isAsciiChar (c : Char) : Bool := c.toNat < 128

/-- The lines of a text, of which `e` is the one that the byte offset lies in,
as far as it has been looked at, with the characters behind the offset. -/
def entriesFrom (e : Entry) (offset : Nat) : List Char → List Entry
  | [] => [e]
  | c :: cs =>
    if c = '\n' then
      e :: entriesFrom ⟨offset + c.utf8Size, true, cs⟩ (offset + c.utf8Size) cs
    else
      entriesFrom { e with isAscii := e.isAscii && isAsciiChar c } (offset + c.utf8Size) cs

/-- The index of a text. -/
def ofText (source : List Char) : LineIndex :=
  ⟨entriesFrom ⟨0, true, source⟩ 0 source, width source⟩

/-- The difference of two numbers that is none below zero. -/
def minus? (a b : Nat) : Option Nat := if b ≤ a then some (a - b) else none

/-- How many characters lie between two byte offsets of the whole text, the first
of which is not before the line. -/
def Entry.chars? (e : Entry) (first last : Nat) : Option Nat := do
  let i ← minus? first e.start
  let j ← minus? last e.start
  (slice? i j e.text).map List.length

/-- The column of a byte offset on the line with the given number.  The last
lookup helps if it was on this line. -/
def Entry.column? (e : Entry) (line : Nat) (last : Position) (offset : Nat) : Option Nat :=
  if e.isAscii then (minus? offset e.start).map (· + 1)
  else if last.line ≠ line then (e.chars? e.start offset).map (· + 1)
  else if last.offset ≤ offset then (e.chars? last.offset offset).map (last.column + ·)
  else (e.chars? offset last.offset).bind (minus? last.column ·)

/-- Looks up the place at a byte offset, the last lookup having given `last`. -/
def lookup? (index : LineIndex) (last : Position) (offset : Nat) : Option Position := do
  let line := index.entries.findIdx fun e => offset < e.start
  let e ← index.entries[← minus? line 1]?
  let column ← e.column? line last offset
  return ⟨offset, line, column⟩

/-! ## Lines -/

theorem minus?_add (a b : Nat) : minus? (a + b) a = some b := by
  rw [minus?, if_pos (Nat.le_add_right a b), Nat.add_sub_cancel_left]

theorem eq_add_of_minus? {a b c : Nat} (h : minus? a b = some c) : a = b + c := by
  unfold minus? at h
  split at h
  · next hle =>
    obtain rfl := Option.some.inj h
    exact (Nat.add_sub_cancel' hle).symm
  · simp at h

theorem utf8Size_of_isAsciiChar {c : Char} (h : isAsciiChar c = true) : c.utf8Size = 1 := by
  have hlt : c.toNat < 128 := by simpa [isAsciiChar] using h
  have hle : c.val ≤ 0x7F := UInt32.le_iff_toNat_le.2 (Nat.le_of_lt_succ hlt)
  simp [Char.utf8Size, hle]

/-- The place `p` is on the line, behind the part `line` of it and in front of the
text `rest`. -/
structure Entry.At (e : Entry) (p : Position) (line rest : List Char) : Prop where
  text : e.text = line ++ rest
  offset : p.offset = e.start + width line
  column : p.column = line.length + 1
  ascii : e.isAscii = true → width line = line.length

/-- The first of the lines is the one that the text starts in, and no other starts
before the text or within its first character. -/
theorem entriesFrom_eq_cons (e : Entry) (offset : Nat) (cs : List Char) :
    ∃ a more, entriesFrom e offset cs = ⟨e.start, a, e.text⟩ :: more ∧
      (a = true → e.isAscii = true ∧ ∀ c ∈ cs.head?, c.utf8Size = 1) ∧
      ∀ o, (∀ c ∈ cs.head?, o < offset + c.utf8Size) → ∀ m ∈ more.head?, o < m.start := by
  induction cs generalizing e offset with
  | nil => exact ⟨e.isAscii, [], rfl, fun h => ⟨h, by simp⟩, by simp⟩
  | cons c cs ih =>
    unfold entriesFrom
    split
    · next hc =>
      obtain ⟨a, more, hentries, _⟩ := ih ⟨offset + c.utf8Size, true, cs⟩ (offset + c.utf8Size)
      refine ⟨e.isAscii, _, rfl, fun h => ⟨h, ?_⟩, ?_⟩
      · intro d hd
        obtain rfl : c = d := by simpa using hd
        rw [hc]
        decide
      · intro o ho m hm
        rw [hentries] at hm
        obtain rfl : _ = m := by simpa using hm
        exact ho c rfl
    · obtain ⟨a, more, hentries, hascii, hmore⟩ :=
        ih { e with isAscii := e.isAscii && isAsciiChar c } (offset + c.utf8Size)
      refine ⟨a, more, hentries, ?_, ?_⟩
      · intro ha
        have hboth : e.isAscii = true ∧ isAsciiChar c = true := by simpa using (hascii ha).1
        refine ⟨hboth.1, fun d hd => ?_⟩
        obtain rfl : c = d := by simpa using hd
        exact utf8Size_of_isAsciiChar hboth.2
      · intro o ho
        refine hmore o fun d _ => ?_
        have := ho c rfl
        omega

/-- The line of a place is the one with as many lines before it as there are
newlines, and its start is the last up to any offset that is not behind the next
character. -/
theorem entriesFrom_append (past rest : List Char) {e : Entry} {p : Position} {line : List Char}
    (h : e.At p line (past ++ rest)) {o : Nat} (hle : p.offset + width past ≤ o)
    (hlt : ∀ c ∈ rest.head?, o < p.offset + width past + c.utf8Size) :
    (entriesFrom e p.offset (past ++ rest)).findIdx (fun m => o < m.start) =
        past.count '\n' + 1 ∧
      ∃ e' line', (entriesFrom e p.offset (past ++ rest))[past.count '\n']? = some e' ∧
        e'.At (p.after past) line' rest ∧
        (e'.isAscii = true → ∀ c ∈ rest.head?, c.utf8Size = 1) := by
  have hstart : ¬o < e.start := by
    have := h.offset
    omega
  induction past generalizing e p line with
  | nil =>
    obtain ⟨a, more, hentries, hascii, hmore⟩ := entriesFrom_eq_cons e p.offset rest
    rw [List.nil_append, hentries]
    constructor
    · have hmore := hmore o hlt
      rw [List.findIdx_cons]
      cases more with
      | nil => simp [hstart]
      | cons m more => simp [hstart, List.findIdx_cons, hmore m rfl]
    · refine ⟨_, line, rfl, ⟨h.text, h.offset, h.column, fun ha => h.ascii (hascii ha).1⟩, ?_⟩
      exact fun ha => (hascii ha).2
  | cons c past ih =>
    rw [width_cons] at hle hlt
    rw [List.cons_append, entriesFrom]
    have hadvance := p.offset_advance c
    split
    · next hc =>
      subst hc
      have hnext : Entry.At ⟨p.offset + '\n'.utf8Size, true, past ++ rest⟩ (p.advance '\n') []
          (past ++ rest) := ⟨rfl, hadvance, rfl, fun _ => rfl⟩
      obtain ⟨hfind, e', line', hget, hrest⟩ := ih hnext (by omega)
        (fun d hd => by have := hlt d hd; omega) (by show ¬o < p.offset + '\n'.utf8Size; omega)
      rw [hadvance] at hfind hget
      rw [List.count_cons_self]
      refine ⟨?_, e', line', by rw [List.getElem?_cons_succ, hget], hrest⟩
      rw [List.findIdx_cons, hfind]
      simp [hstart]
    · next hc =>
      have hnext : Entry.At { e with isAscii := e.isAscii && isAsciiChar c } (p.advance c)
          (line ++ [c]) (past ++ rest) := by
        refine ⟨by rw [h.text]; simp, ?_, ?_, fun ha => ?_⟩
        · rw [hadvance, h.offset, width_append, width_cons, width_nil]
          show _ = e.start + _
          omega
        · rw [Position.advance, if_neg hc, List.length_append]
          exact congrArg (· + 1) h.column
        · have hboth : e.isAscii = true ∧ isAsciiChar c = true := by simpa using ha
          simp [h.ascii hboth.1, utf8Size_of_isAsciiChar hboth.2]
      obtain ⟨hfind, hget⟩ := ih hnext (by omega) (fun d hd => by have := hlt d hd; omega) hstart
      rw [hadvance] at hfind hget
      rw [List.count_cons_of_ne hc]
      exact ⟨hfind, hget⟩

variable {source past rest : List Char} {o : Nat}

theorem ofText_append (h : source = past ++ rest) (hle : width past ≤ o)
    (hlt : ∀ c ∈ rest.head?, o < width past + c.utf8Size) :
    (ofText source).entries.findIdx (fun m => o < m.start) = past.count '\n' + 1 ∧
      ∃ e line, (ofText source).entries[past.count '\n']? = some e ∧
        e.At (Position.start.after past) line rest ∧
        (e.isAscii = true → ∀ c ∈ rest.head?, c.utf8Size = 1) := by
  have hfirst : Entry.At ⟨0, true, past ++ rest⟩ Position.start [] (past ++ rest) :=
    ⟨rfl, rfl, rfl, fun _ => rfl⟩
  have hzero : Position.start.offset + width past = width past := Nat.zero_add _
  rw [← hzero] at hle hlt
  rw [h]
  exact entriesFrom_append past rest hfirst hle hlt

/-! ## Columns -/

section Column

variable {e : Entry} {p : Position} {line : List Char}

theorem Entry.chars?_append {cs : List Char} (h : e.text = line ++ (cs ++ rest)) :
    e.chars? (e.start + width line) (e.start + (width line + width cs)) = some cs.length := by
  simp only [chars?, minus?_add, h, bind, Option.bind_some, slice?_append, Option.map_some]

/-- The column of a place on the line is found, whichever way it is counted. -/
theorem Entry.column?_eq (h : e.At p line rest) {last : Position}
    (hlast : last.line = p.line → ∃ line' rest', e.At last line' rest') :
    e.column? p.line last p.offset = some p.column := by
  unfold column?
  split
  · next hascii =>
    rw [h.offset, minus?_add, Option.map_some, h.ascii hascii, h.column]
  · split
    · have hchars := @chars?_append rest e [] line h.text
      rw [width_nil, Nat.zero_add, Nat.add_zero] at hchars
      rw [h.offset, hchars, Option.map_some, h.column]
    · next hline =>
      obtain ⟨line', rest', hlast⟩ := hlast (Decidable.not_not.1 hline)
      have htexts : line' ++ rest' = line ++ rest := hlast.text.symm.trans h.text
      split
      · next hle =>
        rw [h.offset, hlast.offset] at hle
        obtain ⟨mid, rfl, rfl⟩ := exists_append_of_width_le htexts (by omega)
        rw [h.offset, hlast.offset, width_append, chars?_append hlast.text, Option.map_some,
          h.column, hlast.column, List.length_append, Nat.add_right_comm]
      · next hgt =>
        rw [h.offset, hlast.offset] at hgt
        obtain ⟨mid, rfl, rfl⟩ := exists_append_of_width_le htexts.symm (by omega)
        rw [h.offset, hlast.offset, width_append, chars?_append h.text, Option.bind_some,
          hlast.column, h.column, List.length_append, Nat.add_right_comm, Nat.add_comm, minus?_add]

/-- Characters are counted between two places on the line. -/
theorem Entry.ends_of_chars? {first last n : Nat} (h : e.chars? first last = some n) :
    (∃ cs ds, e.text = cs ++ ds ∧ first = e.start + width cs) ∧
      ∃ cs ds, e.text = cs ++ ds ∧ last = e.start + width cs := by
  unfold chars? at h
  obtain ⟨i, hi, h⟩ := Option.bind_eq_some_iff.1 h
  obtain ⟨j, hj, h⟩ := Option.bind_eq_some_iff.1 h
  obtain ⟨cs, hslice, _⟩ := Option.map_eq_some_iff.1 h
  obtain ⟨past, behind, htext, rfl, rfl⟩ := slice?_eq_some hslice
  refine ⟨⟨past, _, htext, eq_add_of_minus? hi⟩, past ++ cs, behind, ?_, ?_⟩
  · rw [htext, List.append_assoc]
  · rw [width_append]
    exact eq_add_of_minus? hj

/-- An offset inside a character is at no place of the line. -/
theorem Entry.At.ne_of_inside {c : Char} (h : e.At p line (c :: rest)) (hlt : p.offset < o)
    (hgt : o < p.offset + c.utf8Size) : ¬∃ cs ds, e.text = cs ++ ds ∧ o = e.start + width cs := by
  rintro ⟨cs, ds, htext, rfl⟩
  rw [h.offset] at hlt hgt
  exact width_ne_of_inside (htext.symm.trans h.text) (by omega) (by omega) rfl

/-- No column is counted inside a character. -/
theorem Entry.column?_inside {c : Char} (h : e.At p line (c :: rest)) (hascii : e.isAscii = false)
    (hlt : p.offset < o) (hgt : o < p.offset + c.utf8Size) (number : Nat) (last : Position) :
    e.column? number last o = none := by
  have hno := h.ne_of_inside hlt hgt
  rw [column?, hascii, if_neg (by simp)]
  refine Option.eq_none_iff_forall_ne_some.2 fun n hn => ?_
  split at hn
  · obtain ⟨k, hk, _⟩ := Option.map_eq_some_iff.1 hn
    exact hno (ends_of_chars? hk).2
  · split at hn
    · obtain ⟨k, hk, _⟩ := Option.map_eq_some_iff.1 hn
      exact hno (ends_of_chars? hk).2
    · obtain ⟨k, hk, _⟩ := Option.bind_eq_some_iff.1 hn
      exact hno (ends_of_chars? hk).1

end Column

/-! ## Lookups -/

theorem lookup?_eq {index : LineIndex} {e : Entry} {number : Nat} (last : Position)
    (hfind : index.entries.findIdx (fun m => o < m.start) = number + 1)
    (he : index.entries[number]? = some e) :
    index.lookup? last o = (e.column? (number + 1) last o).map (⟨o, number + 1, ·⟩) := by
  have hminus : minus? (number + 1) 1 = some number := by
    rw [Nat.add_comm]
    exact minus?_add 1 number
  simp only [lookup?, hfind, hminus, bind, Option.bind_some, he, pure]
  cases e.column? (number + 1) last o <;> rfl

/-- Between two characters a lookup finds the place behind the text in front, wherever
the last lookup was. -/
theorem lookup?_of_isIn {last : Position} (hlast : last.IsIn source) (h : source = past ++ rest) :
    (ofText source).lookup? last (width past) = some (Position.start.after past) := by
  obtain ⟨hfind, e, line, he, hat, _⟩ := ofText_append h (Nat.le_refl _) fun c _ =>
    Nat.lt_add_of_pos_right c.utf8Size_pos
  have hoffset := Position.offset_start_after past
  have hline : (Position.start.after past).line = past.count '\n' + 1 :=
    (Position.line_after _ past).trans (Nat.add_comm ..)
  obtain ⟨past', rest', h', rfl⟩ := hlast
  obtain ⟨_, e', line', he', hat', _⟩ := ofText_append h' (Nat.le_refl _) fun c _ =>
    Nat.lt_add_of_pos_right c.utf8Size_pos
  have hcolumn : e.column? (Position.start.after past).line (Position.start.after past')
      (Position.start.after past).offset = some (Position.start.after past).column := by
    refine Entry.column?_eq hat fun hsame => ?_
    -- the two places are on one line, so the index gives one entry for both
    have hcount : past'.count '\n' = past.count '\n' := by
      rw [hline, Position.line_after, Nat.add_comm] at hsame
      exact Nat.succ.inj hsame
    rw [hcount, he] at he'
    exact ⟨line', rest', Option.some.inj he' ▸ hat'⟩
  rw [lookup?_eq _ hfind he, ← hline, ← hoffset, hcolumn]
  rfl

/-- A lookup in the text that gives anything gives a place of the text. -/
theorem isIn_of_lookup? {last p : Position} (hlast : last.IsIn source)
    (h : (ofText source).lookup? last o = some p) (hle : o ≤ width source) : p.IsIn source := by
  obtain ⟨past, rest, hsource, hplace⟩ := exists_split_at hle
  rcases hplace with rfl | ⟨c, behind, rfl, hlt, hgt⟩
  · rw [lookup?_of_isIn hlast hsource] at h
    exact ⟨past, rest, hsource, (Option.some.inj h).symm⟩
  · obtain ⟨hfind, e, line, he, hat, hascii⟩ := ofText_append hsource (Nat.le_of_lt hlt)
      fun d hd => (Option.some.inj hd) ▸ hgt
    have hoffset := Position.offset_start_after past
    have hwide : e.isAscii = false := by
      refine Bool.eq_false_iff.2 fun ha => ?_
      have := hascii ha c rfl
      omega
    have hnone := Entry.column?_inside hat hwide (hoffset ▸ hlt) (hoffset ▸ hgt)
      (past.count '\n' + 1) last
    rw [lookup?_eq last hfind he, hnone] at h
    simp at h

end LineIndex
end LispSyntax
