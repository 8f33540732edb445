/-
JSON values are read as they were written.

What is written for a value, in any layout that adds nothing but spaces, is derived with
that value.  So the text is read as the value, `parse?_text`, and its brackets nest as
deep as the value, `bracketNesting_text`.  One item or member after another is derived
if each of the values is, and the theorem on values, by recursion, only has to put these
together.  Under the compact layout a value takes one line.
-/
import LispSyntax.Proofs.JsonNesting
import LispSyntax.Proofs.JsonReading

namespace LispSyntax
namespace Json

/-! ## Values -/

mutual
/-- How deep arrays and objects nest. -/
def levels : Json → Nat
  | .null => 0
  | .bool _ => 0
  | .number _ => 0
  | .string _ => 0
  | .array vs => levelsItems vs + 1
  | .object ms => levelsMembers ms + 1

def levelsItems : List Json → Nat
  | [] => 0
  | v :: vs => max (levels v) (levelsItems vs)

def levelsMembers : List (String × Json) → Nat
  | [] => 0
  | (_, v) :: ms => max (levels v) (levelsMembers ms)
end

mutual
/-- All numbers in the value are natural numbers of 64 bits. -/
def Words : Json → Prop
  | .null => True
  | .bool _ => True
  | .number (.whole n) => n < Nat.pow 2 64
  | .number (.decimal _ _) => False
  | .string _ => True
  | .array vs => WordsItems vs
  | .object ms => WordsMembers ms

def WordsItems : List Json → Prop
  | [] => True
  | v :: vs => Words v ∧ WordsItems vs

def WordsMembers : List (String × Json) → Prop
  | [] => True
  | (_, v) :: ms => Words v ∧ WordsMembers ms
end

/-! ## Spaces -/

/-- The layout adds nothing but spaces. -/
structure Layout.Spaced (l : Layout) : Prop where
  lineBreak : ∀ depth, ∀ c ∈ l.lineBreak depth, isSpace c = true
  colon : ∃ sp, l.colon = ':' :: sp ∧ ∀ c ∈ sp, isSpace c = true

theorem Layout.compact_spaced : compact.Spaced where
  lineBreak := by simp [compact]
  colon := ⟨[], rfl, by simp⟩

theorem Layout.indented_spaced : indented.Spaced where
  lineBreak depth c hc := by
    rcases List.mem_cons.1 hc with rfl | hc
    · decide
    · rw [List.eq_of_mem_replicate hc]
      decide
  colon := ⟨[' '], rfl, by simp; decide⟩

/-! ## Written tokens -/

theorem newline_not_mem_writeChar (c : Char) : '\n' ∉ writeChar c := by
  have hdigit : ∀ n < 16, '\n' ≠ Nat.digitChar n := by decide
  unfold writeChar
  split
  · decide
  · decide
  · decide
  · decide
  · decide
  · decide
  · decide
  · next hnewline _ _ =>
    split
    · next hcontrol =>
      simp [hdigit (c.toNat / 16) (by omega), hdigit (c.toNat % 16) (by omega)]
    · simpa using Ne.symm hnewline

theorem newline_not_mem_writeString (s : String) : '\n' ∉ writeString s := by
  simp [writeString, newline_not_mem_writeChar]

theorem hexValue?_digitChar : ∀ n < 16, hexValue? (Nat.digitChar n) = some n := by decide

theorem newline_not_mem_toDigits (n : Nat) : '\n' ∉ Nat.toDigits 10 n := by
  intro hmem
  have hdigit := Nat.isDigit_of_mem_toDigits (by decide) (by decide) hmem
  exact absurd hdigit (by decide)

theorem decimalValue_toDigits (n : Nat) : decimalValue (Nat.toDigits 10 n) = n := by
  have hvalue := @Nat.ofDigitChars_ten_toDigits n
  rw [Nat.ofDigitChars_eq_foldl] at hvalue
  exact hvalue

theorem head?_toDigits_ne_zero {n : Nat} (h : 0 < n) : (Nat.toDigits 10 n).head? ≠ some '0' := by
  induction n using Nat.strongRecOn with
  | ind n ih =>
    rw [Nat.toDigits_eq_if (by decide)]
    split
    · simp only [List.head?_cons, ne_eq, Option.some.injEq, Nat.digitChar_eq_zero]
      omega
    · have hhead := ih (n / 10) (by omega) (by omega)
      obtain ⟨d, ds, hds⟩ := List.exists_cons_of_ne_nil (@Nat.toDigits_ne_nil (n / 10) 10)
      rw [hds] at hhead ⊢
      exact hhead

/-- No number is written with a needless zero in front. -/
theorem toDigits_ne_zero_cons (n : Nat) (c : Char) (cs : List Char) :
    Nat.toDigits 10 n ≠ '0' :: c :: cs := by
  intro h
  cases n with
  | zero => simp at h
  | succ n =>
    have hhead := head?_toDigits_ne_zero (Nat.succ_pos n)
    rw [h] at hhead
    exact hhead rfl

namespace Significand

theorem le_foldl_digits (ds : List Nat) (v : Nat) : v ≤ ds.foldl (fun n d => 10 * n + d) v := by
  induction ds generalizing v with
  | nil => exact Nat.le_refl v
  | cons d ds ih => exact Nat.le_trans (by omega) (ih (10 * v + d))

/-- Digits of a number that fits into 64 bits are not refused. -/
theorem foldl_takeWhole (ds : List Nat) {v : Nat}
    (h : ds.foldl (fun n d => 10 * n + d) v < Nat.pow 2 64) :
    ds.foldl takeWhole ⟨v, 0, false⟩ = ⟨ds.foldl (fun n d => 10 * n + d) v, 0, false⟩ := by
  induction ds generalizing v with
  | nil => rfl
  | cons d ds ih =>
    have hlt := Nat.lt_of_le_of_lt (le_foldl_digits ds (10 * v + d)) h
    have hrefuses : refuses ⟨v, 0, false⟩ d = false := by
      rw [refuses, Bool.false_or, decide_eq_false_iff_not]
      exact Nat.not_le_of_lt hlt
    rw [List.foldl_cons, List.foldl_cons, takeWhole, hrefuses]
    exact ih h

theorem ofDigits_toDigits {n : Nat} (h : n < Nat.pow 2 64) :
    ofDigits ((Nat.toDigits 10 n).map digitValue) [] = ⟨n, 0, false⟩ := by
  have hvalue : ((Nat.toDigits 10 n).map digitValue).foldl (fun n d => 10 * n + d) 0 = n := by
    rw [List.foldl_map]
    exact decimalValue_toDigits n
  have hfold := foldl_takeWhole ((Nat.toDigits 10 n).map digitValue) (hvalue.symm ▸ h)
  rw [hvalue] at hfold
  show Significand.mk _ _ false = _
  rw [show empty = ⟨0, 0, false⟩ from rfl, hfold]

end Significand

theorem roundBinary_le (n : Nat) : roundBinary n ≤ n + Nat.pow 2 (n.log2 + 1 - 53) := by
  have hle := Nat.div_mul_le_self n (Nat.pow 2 (n.log2 + 1 - 53))
  unfold roundBinary
  dsimp only
  split
  · rw [Nat.succ_mul]
    omega
  · omega

theorem isInfinite_of_lt {n : Nat} (h : n < Nat.pow 2 64) : isInfinite n 0 = false := by
  have hlog : n.log2 < 64 := by
    by_cases hn : n = 0
    · rw [hn]
      decide
    · exact (Nat.log2_lt hn).2 h
  have hunit : Nat.pow 2 (n.log2 + 1 - 53) ≤ Nat.pow 2 11 :=
    Nat.pow_le_pow_right (by decide) (by omega)
  have hround := roundBinary_le n
  have hone : roundBinary (Nat.pow 10 (0 : Int).toNat) = 1 := by decide
  have hbound : Nat.pow 2 64 + Nat.pow 2 11 < Nat.pow 2 1024 - Nat.pow 2 970 := by
    decide +kernel
  have hfinite : ¬Nat.pow 2 1024 - Nat.pow 2 970 ≤ roundBinary n := by omega
  rw [isInfinite, hone, Nat.mul_one, decide_eq_false hfinite]
  simp

theorem exists_letter (c : Char) :
    ∃ l : Letter, l.Legal ∧ l.value? = some c ∧ l.text = writeChar c := by
  unfold writeChar
  split
  · exact ⟨.short '"', rfl, rfl, rfl⟩
  · exact ⟨.short '\\', rfl, rfl, rfl⟩
  · exact ⟨.short 'b', rfl, rfl, rfl⟩
  · exact ⟨.short 't', rfl, rfl, rfl⟩
  · exact ⟨.short 'n', rfl, rfl, rfl⟩
  · exact ⟨.short 'f', rfl, rfl, rfl⟩
  · exact ⟨.short 'r', rfl, rfl, rfl⟩
  · next hquote hslash _ _ _ _ _ =>
    split
    · next hcontrol =>
      have hhigh := hexValue?_digitChar (c.toNat / 16) (by omega)
      have hlow := hexValue?_digitChar (c.toNat % 16) (by omega)
      have hzero : hexValue? '0' = some 0 := rfl
      let u : CodeUnit := ⟨'0', '0', Nat.digitChar (c.toNat / 16), Nat.digitChar (c.toNat % 16)⟩
      have hunit : u.value? = some c.toNat := by
        simp only [u, CodeUnit.value?, codeUnit?, hzero, hhigh, hlow, Option.some.injEq]
        omega
      have hsurrogate : isHighSurrogate c.toNat = false ∧ isLowSurrogate c.toNat = false := by
        simp [isLowSurrogate, isHighSurrogate]
        omega
      refine ⟨.code u, by simp [Letter.Legal, CodeUnit.Legal, hunit], ?_, rfl⟩
      simp [Letter.value?, hunit, hsurrogate]
    · next hcontrol => exact ⟨.plain c, ⟨hquote, hslash, Nat.not_lt.1 hcontrol⟩, rfl, rfl⟩

theorem exists_quoted (s : String) : ∃ ls, (∀ l ∈ ls, Letter.Legal l) ∧ string? ls = some s ∧
    quoted ls = writeString s := by
  have hletters : ∀ cs : List Char, ∃ ls : List Letter, (∀ l ∈ ls, l.Legal) ∧
      ls.mapM Letter.value? = some cs ∧ ls.flatMap Letter.text = cs.flatMap writeChar := by
    intro cs
    induction cs with
    | nil => exact ⟨[], by simp, rfl, rfl⟩
    | cons c cs ih =>
      obtain ⟨l, hl, hvalue, htext⟩ := exists_letter c
      obtain ⟨ls, hls, hvalues, htexts⟩ := ih
      refine ⟨l :: ls, List.forall_mem_cons.2 ⟨hl, hls⟩, ?_, ?_⟩
      · simp [hvalue, hvalues]
      · rw [List.flatMap_cons, List.flatMap_cons, htext, htexts]
  obtain ⟨ls, hls, hvalues, htexts⟩ := hletters s.toList
  refine ⟨ls, hls, by simp [string?, hvalues], ?_⟩
  rw [quoted, writeString, htexts, List.cons_append]

/-- A natural number of 64 bits is written as a numeral of its own. -/
theorem exists_numeral {n : Nat} (hn : n < Nat.pow 2 64) : ∃ m : Numeral, m.Legal ∧
    m.value? = some (.whole n) ∧ m.text = writeNumber (.whole n) := by
  have hdigits : ∀ c ∈ Nat.toDigits 10 n, c.isDigit = true :=
    fun c hc => Nat.isDigit_of_mem_toDigits (by decide) (by decide) hc
  refine ⟨⟨false, Nat.toDigits 10 n, none, none⟩,
    ⟨⟨Nat.toDigits_ne_nil, hdigits⟩, toDigits_ne_zero_cons n, by simp, by simp⟩, ?_, ?_⟩
  · have hfinite := isInfinite_of_lt hn
    simp [Numeral.value?, number?, Significand.ofDigits_toDigits hn, hfinite,
      decimalValue_toDigits]
  · simp [Numeral.text, fractionText, exponentText, writeNumber]

/-! ## Written values -/

section Written

variable {l : Layout}

/-- What is written for the value under the layout is derived with that value. -/
def Written (l : Layout) (v : Json) : Prop :=
  ∀ depth : Nat, ∃ t : Tree, t.Legal ∧ t.value? = some v ∧ t.levels = v.levels ∧
    ∀ rest : List Char, write l depth v rest = t.text ++ rest

theorem written_items (hl : l.Spaced) (depth outer : Nat) (vs : List Json) :
    ∀ v, (∀ w ∈ v :: vs, Written l w) → ∃ es : Entries, es.Legal .array ∧
      es.elements? .array = some (v :: vs) ∧ es.levels = levelsItems (v :: vs) ∧
      ∀ rest, l.lineBreak depth ++ write l depth v
        (writeItems l depth vs (l.lineBreak outer ++ ']' :: rest)) = es.text ++ ']' :: rest := by
  induction vs with
  | nil =>
    intro v hwritten
    obtain ⟨t, ht, hvalue, hlevels, htext⟩ := hwritten v List.mem_cons_self depth
    refine ⟨.last (.item (l.lineBreak depth)) t (l.lineBreak outer),
      ⟨hl.lineBreak depth, ht, hl.lineBreak outer⟩, ?_, ?_, fun rest => ?_⟩
    · simp [Entries.elements?, hvalue, Lead.attach?]
    · simp [Entries.levels, levelsItems, hlevels]
    · simp [writeItems, htext, Entries.text, Lead.text]
  | cons w vs ih =>
    intro v hwritten
    obtain ⟨t, ht, hvalue, hlevels, htext⟩ := hwritten v List.mem_cons_self depth
    obtain ⟨es, hes, hvalues, hmore, htexts⟩ :=
      ih w fun x hx => hwritten x (List.mem_cons_of_mem v hx)
    refine ⟨.cons (.item (l.lineBreak depth)) t [] es,
      ⟨hl.lineBreak depth, ht, fun c hc => absurd hc (by simp), hes⟩, ?_, ?_, fun rest => ?_⟩
    · simp [Entries.elements?, hvalue, Lead.attach?, hvalues]
    · rw [Entries.levels, hlevels, hmore]
      rfl
    · rw [writeItems, htexts, htext]
      simp [Entries.text, Lead.text]

theorem written_members (hl : l.Spaced) (depth outer : Nat) (ms : List (String × Json)) :
    ∀ name v, (∀ m ∈ (name, v) :: ms, Written l m.2) → ∃ es : Entries, es.Legal .object ∧
      es.elements? .object = some ((name, v) :: ms) ∧
      es.levels = levelsMembers ((name, v) :: ms) ∧
      ∀ rest, l.lineBreak depth ++ (writeString name ++ (l.colon ++ write l depth v
        (writeMembers l depth ms (l.lineBreak outer ++ '\x7d' :: rest)))) =
          es.text ++ '\x7d' :: rest := by
  obtain ⟨sp, hcolon, hsp⟩ := hl.colon
  have hnil : Spaces [] := fun c hc => absurd hc (by simp)
  induction ms with
  | nil =>
    intro name v hwritten
    obtain ⟨ls, hls, hstring, hquoted⟩ := exists_quoted name
    obtain ⟨t, ht, hvalue, hlevels, htext⟩ := hwritten _ List.mem_cons_self depth
    refine ⟨.last (.member (l.lineBreak depth) ls [] sp) t (l.lineBreak outer),
      ⟨⟨hl.lineBreak depth, hls, hnil, hsp⟩, ht, hl.lineBreak outer⟩, ?_, ?_, fun rest => ?_⟩
    · simp [Entries.elements?, hvalue, Lead.attach?, hstring]
    · simp [Entries.levels, levelsMembers, hlevels]
    · simp [writeMembers, htext, Entries.text, Lead.text, hquoted, hcolon]
  | cons m ms ih =>
    intro name v hwritten
    obtain ⟨name', w⟩ := m
    obtain ⟨ls, hls, hstring, hquoted⟩ := exists_quoted name
    obtain ⟨t, ht, hvalue, hlevels, htext⟩ := hwritten _ List.mem_cons_self depth
    obtain ⟨es, hes, hvalues, hmore, htexts⟩ :=
      ih name' w fun x hx => hwritten x (List.mem_cons_of_mem _ hx)
    refine ⟨.cons (.member (l.lineBreak depth) ls [] sp) t [] es,
      ⟨⟨hl.lineBreak depth, hls, hnil, hsp⟩, ht, hnil, hes⟩, ?_, ?_, fun rest => ?_⟩
    · simp [Entries.elements?, hvalue, Lead.attach?, hstring, hvalues]
    · rw [Entries.levels, hlevels, hmore]
      rfl
    · rw [writeMembers, htexts, htext]
      simp [Entries.text, Lead.text, hquoted, hcolon]

theorem written_array (hl : l.Spaced) {vs : List Json} (hwritten : ∀ v ∈ vs, Written l v) :
    Written l (.array vs) := by
  intro depth
  cases vs with
  | nil => exact ⟨.empty .array [], by simp [Tree.Legal, Spaces], rfl, rfl, fun rest => rfl⟩
  | cons v vs =>
    obtain ⟨es, hes, hvalues, hlevels, htext⟩ := written_items hl (depth + 1) depth vs v hwritten
    refine ⟨.full .array es, hes, by simp [Tree.value?, hvalues, Container.wrap], ?_,
      fun rest => ?_⟩
    · rw [Tree.levels, hlevels, levels]
    · rw [write, htext]
      simp [Tree.text, Container.opening, Container.closing]

theorem written_object (hl : l.Spaced) {ms : List (String × Json)}
    (hwritten : ∀ m ∈ ms, Written l m.2) : Written l (.object ms) := by
  intro depth
  cases ms with
  | nil => exact ⟨.empty .object [], by simp [Tree.Legal, Spaces], rfl, rfl, fun rest => rfl⟩
  | cons m ms =>
    obtain ⟨name, v⟩ := m
    obtain ⟨es, hes, hvalues, hlevels, htext⟩ :=
      written_members hl (depth + 1) depth ms name v hwritten
    refine ⟨.full .object es, hes, by simp [Tree.value?, hvalues, Container.wrap], ?_,
      fun rest => ?_⟩
    · rw [Tree.levels, hlevels, levels]
    · rw [write, htext]
      simp [Tree.text, Container.opening, Container.closing]

mutual
/-- What is written for a value whose numbers are of 64 bits is derived with it. -/
theorem value_written (hl : l.Spaced) : (v : Json) → v.Words → Written l v
  | .null, _ => fun _ => ⟨.scalar .null, trivial, rfl, rfl, fun _ => rfl⟩
  | .bool b, _ => fun _ => ⟨.scalar (.bool b), trivial, rfl, rfl, fun _ => rfl⟩
  | .number (.whole n), hn => fun depth => by
    obtain ⟨m, hm, hvalue, htext⟩ := exists_numeral hn
    refine ⟨.scalar (.number m), hm, by simp [Tree.value?, Scalar.value?, hvalue], rfl,
      fun rest => ?_⟩
    rw [write, Tree.text, Scalar.text, htext]
  | .number (.decimal _ _), h => h.elim
  | .string s, _ => fun depth => by
    obtain ⟨ls, hls, hstring, hquoted⟩ := exists_quoted s
    refine ⟨.scalar (.string ls), hls, by simp [Tree.value?, Scalar.value?, hstring], rfl,
      fun rest => ?_⟩
    rw [write, Tree.text, Scalar.text, hquoted]
  | .array vs, hwords => written_array hl (values_written hl vs hwords)
  | .object ms, hwords => written_object hl (members_written hl ms hwords)

theorem values_written (hl : l.Spaced) : (vs : List Json) → WordsItems vs → ∀ v ∈ vs, Written l v
  | [], _ => fun v hv => absurd hv (by simp)
  | w :: ws, hwords => List.forall_mem_cons.2
    ⟨value_written hl w hwords.1, values_written hl ws hwords.2⟩

theorem members_written (hl : l.Spaced) : (ms : List (String × Json)) → WordsMembers ms →
    ∀ m ∈ ms, Written l m.2
  | [], _ => fun m hm => absurd hm (by simp)
  | (_, w) :: ms, hwords => List.forall_mem_cons.2
    ⟨value_written hl w hwords.1, members_written hl ms hwords.2⟩
end

theorem exists_derivation (hl : l.Spaced) {v : Json} (hwords : v.Words) :
    ∃ d : Derivation, d.Legal ∧ d.text = (v.text l).toList ∧ d.value? = some v ∧
      d.tree.levels = v.levels := by
  obtain ⟨t, ht, hvalue, hlevels, htext⟩ := value_written hl v hwords 0
  have hnil : Spaces [] := fun c hc => absurd hc (by simp)
  refine ⟨⟨[], t, []⟩, ⟨hnil, ht, hnil⟩, ?_, hvalue, hlevels⟩
  rw [text, String.toList_ofList, htext]
  rfl

/-- The text of a value is read as the value. -/
theorem parse?_text (hl : l.Spaced) {v : Json} {levels : Nat} (hwords : v.Words)
    (hlevels : v.levels ≤ levels) : parse? levels (v.text l).toList = some v := by
  obtain ⟨d, hd, htext, hvalue, hsame⟩ := exists_derivation hl hwords
  exact parse?_eq_some_iff.2 ⟨d, hd, htext, hvalue, hsame ▸ hlevels⟩

/-- The brackets of a text nest as deep as the value that it was written for. -/
theorem bracketNesting_text (hl : l.Spaced) {v : Json} (hwords : v.Words) :
    bracketNesting (v.text l).toList = v.levels := by
  obtain ⟨d, hd, htext, _, hsame⟩ := exists_derivation hl hwords
  rw [← htext, d.bracketNesting_text hd, hsame]

end Written

/-! ## Values on one line -/

mutual
/-- A value under the compact layout takes one line. -/
theorem newline_not_mem_write : (v : Json) → v.Words → (depth : Nat) → {rest : List Char} →
    '\n' ∉ rest → '\n' ∉ write .compact depth v rest
  | .null, _, _, _, h => by simp [write, h]
  | .bool b, _, _, _, h => by cases b <;> simp [write, h]
  | .number (.whole n), _, _, _, h => by
    simp [write, writeNumber, newline_not_mem_toDigits, h]
  | .number (.decimal m e), hwords, _, _, _ => hwords.elim
  | .string s, _, _, _, h => by simp [write, newline_not_mem_writeString, h]
  | .array [], _, _, _, h => by simp [write, h]
  | .array (v :: vs), hwords, depth, rest, h => by
    have hclose : '\n' ∉ ']' :: rest := by simp [h]
    have hitems := newline_not_mem_writeItems vs hwords.2 (depth + 1) hclose
    have hfirst := newline_not_mem_write v hwords.1 (depth + 1) hitems
    simpa [write, Layout.compact] using hfirst
  | .object [], _, _, _, h => by simp [write, h]
  | .object ((name, v) :: ms), hwords, depth, rest, h => by
    have hclose : '\n' ∉ '\x7d' :: rest := by simp [h]
    have hmembers := newline_not_mem_writeMembers ms hwords.2 (depth + 1) hclose
    have hfirst := newline_not_mem_write v hwords.1 (depth + 1) hmembers
    simpa [write, Layout.compact, newline_not_mem_writeString] using hfirst

theorem newline_not_mem_writeItems : (vs : List Json) → WordsItems vs → (depth : Nat) →
    {rest : List Char} → '\n' ∉ rest → '\n' ∉ writeItems .compact depth vs rest
  | [], _, _, _, h => h
  | v :: vs, hwords, depth, _, h => by
    have hitems := newline_not_mem_writeItems vs hwords.2 depth h
    have hfirst := newline_not_mem_write v hwords.1 depth hitems
    simpa [writeItems, Layout.compact] using hfirst

theorem newline_not_mem_writeMembers : (ms : List (String × Json)) → WordsMembers ms →
    (depth : Nat) → {rest : List Char} → '\n' ∉ rest → '\n' ∉ writeMembers .compact depth ms rest
  | [], _, _, _, h => h
  | (name, v) :: ms, hwords, depth, _, h => by
    have hmembers := newline_not_mem_writeMembers ms hwords.2 depth h
    have hfirst := newline_not_mem_write v hwords.1 depth hmembers
    simpa [writeMembers, Layout.compact, newline_not_mem_writeString] using hfirst
end

end Json
end LispSyntax
