/-
What is read as a string or as a number in a JSON text.

A rule reads a token exactly if it is written as the grammar demands, with the value
that is meant.  The one direction derives whatever has been read, the other reads what
is derived, and each rule has a lemma for both.  A string ends with its quotation mark.
A number ends where no digit, point or exponent follows.
-/
import LispSyntax.Proofs.JsonDerivation

namespace LispSyntax
namespace Json

/-! ## Spaces and digits -/

theorem eq_of_isSpace {c : Char} (h : isSpace c = true) :
    c = ' ' ∨ c = '\t' ∨ c = '\n' ∨ c = '\r' := by
  simpa [isSpace, or_assoc] using h

theorem ne_of_isDigit {c d : Char} (hc : c.isDigit = true) (hd : d.isDigit = false) : c ≠ d := by
  rintro rfl
  rw [hc] at hd
  exact absurd hd (by decide)

theorem isSpace_of_isDigit {c : Char} (h : c.isDigit = true) : isSpace c = false := by
  simp [isSpace, ne_of_isDigit h]

theorem skipSpace_append {sp : List Char} (h : ∀ c ∈ sp, isSpace c = true) (cs : List Char) :
    skipSpace (sp ++ cs) = skipSpace cs :=
  List.dropWhile_append_of_pos h

theorem skipSpace_cons {c : Char} (h : isSpace c = false) (cs : List Char) :
    skipSpace (c :: cs) = c :: cs :=
  List.dropWhile_cons_of_neg (by simp [h])

theorem skipSpace_split (cs : List Char) : ∃ sp, Spaces sp ∧ cs = sp ++ skipSpace cs :=
  ⟨cs.takeWhile isSpace, fun c hc => List.all_eq_true.1 List.all_takeWhile c hc,
    (List.takeWhile_append_dropWhile).symm⟩

/-! ## Strings -/

theorem unitRule_sound {cs rest : List Char} {n : Nat} (h : unitRule cs = some (n, rest)) :
    ∃ u : CodeUnit, u.value? = some n ∧ cs = u.text ++ rest := by
  unfold unitRule at h
  split at h
  · next a b c d cs =>
    obtain ⟨m, hm, heq⟩ := Option.map_eq_some_iff.1 h
    obtain ⟨rfl, rfl⟩ := Prod.mk.inj heq
    exact ⟨⟨a, b, c, d⟩, hm, rfl⟩
  · simp at h

theorem unitRule_text {u : CodeUnit} {n : Nat} (h : u.value? = some n) (rest : List Char) :
    unitRule (u.text ++ rest) = some (n, rest) := by
  have hunit : codeUnit? u.a u.b u.c u.d = some n := h
  simp [CodeUnit.text, unitRule, hunit]

theorem unicodeRule_sound {cs rest : List Char} {c : Char} (h : unicodeRule cs = some (c, rest)) :
    ∃ l : Letter, l.Legal ∧ l.value? = some c ∧ '\\' :: 'u' :: cs = l.text ++ rest := by
  unfold unicodeRule at h
  split at h
  · simp at h
  · next high ds hunit =>
    obtain ⟨u, hu, rfl⟩ := unitRule_sound hunit
    split at h
    · simp at h
    · next hlow =>
      split at h
      · next hhigh =>
        split at h
        · next es =>
          split at h
          · simp at h
          · next low fs hunit' =>
            obtain ⟨w, hw, rfl⟩ := unitRule_sound hunit'
            split at h
            · next hlow' =>
              obtain ⟨rfl, rfl⟩ := Prod.mk.inj (Option.some.inj h)
              refine ⟨.pair u w, ⟨by simp [CodeUnit.Legal, hu], by simp [CodeUnit.Legal, hw]⟩,
                ?_, ?_⟩
              · simp [Letter.value?, hu, hw, hhigh, hlow']
              · simp [Letter.text]
            · simp at h
        · simp at h
      · next hhigh =>
        obtain ⟨rfl, rfl⟩ := Prod.mk.inj (Option.some.inj h)
        refine ⟨.code u, by simp [Letter.Legal, CodeUnit.Legal, hu], ?_, rfl⟩
        simp [Letter.value?, hu, hhigh, hlow]

theorem charRule_sound {cs rest : List Char} {c : Char} (h : charRule cs = some (c, rest)) :
    ∃ l : Letter, l.Legal ∧ l.value? = some c ∧ cs = l.text ++ rest := by
  unfold charRule at h
  split at h
  · exact unicodeRule_sound h
  · next d ds _ =>
    obtain ⟨m, hm, heq⟩ := Option.map_eq_some_iff.1 h
    obtain ⟨rfl, rfl⟩ := Prod.mk.inj heq
    exact ⟨.short d, by simp [Letter.Legal, hm], hm, rfl⟩
  · next d ds _ _ =>
    split at h
    · simp at h
    · next hplain =>
      obtain ⟨rfl, rfl⟩ := Prod.mk.inj (Option.some.inj h)
      simp only [not_or, Nat.not_lt] at hplain
      exact ⟨.plain d, hplain, rfl, rfl⟩
  · simp at h

theorem charRule_text {l : Letter} {c : Char} (hlegal : l.Legal) (hvalue : l.value? = some c)
    (rest : List Char) : charRule (l.text ++ rest) = some (c, rest) := by
  cases l with
  | plain d =>
    obtain rfl := Option.some.inj hvalue
    obtain ⟨hquote, hslash, hcontrol⟩ := hlegal
    simp [Letter.text, charRule, hquote, hslash, Nat.not_lt.2 hcontrol]
  | short d =>
    have hne : d ≠ 'u' := by
      rintro rfl
      simp [Letter.value?, unescape?] at hvalue
    have hvalue' : unescape? d = some c := hvalue
    simp [Letter.text, charRule, hvalue']
  | code u =>
    obtain ⟨n, hn, hite⟩ := Option.bind_eq_some_iff.1 hvalue
    have hunit := unitRule_text hn rest
    obtain ⟨hsurrogate, hc⟩ := Option.ite_none_left_eq_some.1 hite
    obtain rfl := Option.some.inj hc
    simp only [Bool.or_eq_true, not_or, Bool.not_eq_true] at hsurrogate
    show unicodeRule (u.text ++ rest) = _
    simp [unicodeRule, hunit, hsurrogate]
  | pair u w =>
    obtain ⟨high, hhigh, hrest⟩ := Option.bind_eq_some_iff.1 hvalue
    obtain ⟨low, hlow, hite⟩ := Option.bind_eq_some_iff.1 hrest
    obtain ⟨hsurrogate, hc⟩ := Option.ite_none_right_eq_some.1 hite
    obtain rfl := Option.some.inj hc
    rw [Bool.and_eq_true] at hsurrogate
    have hfirst : isLowSurrogate high = false := by
      simp only [isHighSurrogate, isLowSurrogate, Bool.and_eq_true, decide_eq_true_eq] at hsurrogate
      simp [isLowSurrogate]
      omega
    have hunit := unitRule_text hhigh ('\\' :: 'u' :: (w.text ++ rest))
    have hunit' := unitRule_text hlow rest
    show unicodeRule (u.text ++ '\\' :: 'u' :: w.text ++ rest) = _
    rw [List.append_assoc]
    simp [unicodeRule, hunit, hunit', hfirst, hsurrogate]

theorem stringRest_sound {bound done cs rest : List Char} {s : String}
    (h : stringRest bound done cs = some (s, rest)) :
    ∃ (ls : List Letter) (chars : List Char), (∀ l ∈ ls, l.Legal) ∧
      ls.mapM Letter.value? = some chars ∧
      cs = ls.flatMap Letter.text ++ '"' :: rest ∧ s = String.ofList (done.reverse ++ chars) := by
  induction bound generalizing done cs with
  | nil =>
    unfold stringRest at h
    split at h
    · obtain ⟨rfl, rfl⟩ := Prod.mk.inj (Option.some.inj h)
      exact ⟨[], [], by simp, rfl, rfl, by simp⟩
    · next heq => simp at heq
    · simp at h
  | cons b bound ih =>
    unfold stringRest at h
    split at h
    · obtain ⟨rfl, rfl⟩ := Prod.mk.inj (Option.some.inj h)
      exact ⟨[], [], by simp, rfl, rfl, by simp⟩
    · next _ heq =>
      obtain ⟨rfl, rfl⟩ := List.cons.inj heq
      split at h
      · next c ds hchar =>
        obtain ⟨l, hlegal, hvalue, rfl⟩ := charRule_sound hchar
        obtain ⟨ls, chars, hall, hchars, rfl, rfl⟩ := ih h
        refine ⟨l :: ls, c :: chars, List.forall_mem_cons.2 ⟨hlegal, hall⟩, ?_, ?_, ?_⟩
        · simp [hvalue, hchars]
        · simp
        · simp
      · simp at h
    · simp at h

theorem stringRule_sound {cs rest : List Char} {s : String} (h : stringRule cs = some (s, rest)) :
    ∃ ls, (∀ l ∈ ls, l.Legal) ∧ string? ls = some s ∧ cs = quoted ls ++ rest := by
  unfold stringRule at h
  split at h
  · obtain ⟨ls, chars, hall, hchars, rfl, rfl⟩ := stringRest_sound h
    exact ⟨ls, hall, by simp [string?, hchars], by simp [quoted]⟩
  · simp at h

theorem stringRest_of_charRule {b c : Char} {bound done cs cs' : List Char}
    (h : charRule cs = some (c, cs')) :
    stringRest (b :: bound) done cs = stringRest bound (c :: done) cs' := by
  cases cs with
  | nil => simp [charRule] at h
  | cons a as =>
    have hquote : a ≠ '"' := by
      rintro rfl
      simp [charRule] at h
    rw [stringRest, h]
    intro _ heq
    exact hquote (List.cons.inj heq).1

theorem stringRest_text {ls : List Letter} {chars : List Char} (hlegal : ∀ l ∈ ls, l.Legal)
    (hvalue : ls.mapM Letter.value? = some chars) {bound : List Char}
    (hbound : ls.length ≤ bound.length) (done rest : List Char) :
    stringRest bound done (ls.flatMap Letter.text ++ '"' :: rest) =
      some (String.ofList (done.reverse ++ chars), rest) := by
  induction ls generalizing bound done chars with
  | nil =>
    obtain rfl : [] = chars := by simpa using hvalue
    simp [stringRest]
  | cons l ls ih =>
    obtain ⟨hl, hls⟩ := List.forall_mem_cons.1 hlegal
    simp only [List.mapM_cons, Option.bind_eq_bind, Option.bind_eq_some_iff, Option.pure_def,
      Option.some.injEq] at hvalue
    obtain ⟨c, hc, cs, hcs, rfl⟩ := hvalue
    cases bound with
    | nil => simp at hbound
    | cons b bound =>
      rw [List.flatMap_cons, List.append_assoc, stringRest_of_charRule (charRule_text hl hc _),
        ih hls hcs (Nat.le_of_succ_le_succ hbound)]
      simp

theorem length_le_flatMap_text (ls : List Letter) :
    ls.length ≤ (ls.flatMap Letter.text).length := by
  induction ls with
  | nil => exact Nat.le_refl 0
  | cons l ls ih =>
    have hpos : 0 < l.text.length := by cases l <;> simp [Letter.text]
    rw [List.flatMap_cons, List.length_append, List.length_cons]
    omega

theorem stringRule_quoted {ls : List Letter} {s : String} (hlegal : ∀ l ∈ ls, l.Legal)
    (hvalue : string? ls = some s) (rest : List Char) :
    stringRule (quoted ls ++ rest) = some (s, rest) := by
  obtain ⟨chars, hchars, rfl⟩ := Option.map_eq_some_iff.1 hvalue
  have hlength := length_le_flatMap_text ls
  have hbound : ls.length ≤ (ls.flatMap Letter.text ++ '"' :: rest).length := by
    rw [List.length_append]
    omega
  have hrest := stringRest_text hlegal hchars hbound [] rest
  simpa [quoted, stringRule] using hrest

/-! ## Numbers -/

/-- A number may end in front of the text. -/
def EndsNumber (behind : List Char) : Prop :=
  ∀ c ∈ behind.head?, c.isDigit = false ∧ c ≠ '.' ∧ c ≠ 'e' ∧ c ≠ 'E'

theorem endsNumber_cons {c : Char} (h : c.isDigit = false ∧ c ≠ '.' ∧ c ≠ 'e' ∧ c ≠ 'E')
    (cs : List Char) : EndsNumber (c :: cs) := by
  intro d hd
  obtain rfl : c = d := by simpa using hd
  exact h

theorem endsNumber_append {sp : List Char} (h : ∀ c ∈ sp, isSpace c = true) {cs : List Char}
    (hcs : EndsNumber cs) : EndsNumber (sp ++ cs) := by
  cases sp with
  | nil => exact hcs
  | cons c sp =>
    refine endsNumber_cons ?_ _
    rcases eq_of_isSpace (h c List.mem_cons_self) with rfl | rfl | rfl | rfl <;> decide

theorem digitsRule_append {ds rest : List Char} (hds : ∀ c ∈ ds, c.isDigit = true) (hne : ds ≠ [])
    (hrest : ∀ c ∈ rest.head?, c.isDigit = false) : digitsRule (ds ++ rest) = some (ds, rest) := by
  have htake : rest.takeWhile Char.isDigit = [] ∧ rest.dropWhile Char.isDigit = rest := by
    cases rest with
    | nil => exact ⟨rfl, rfl⟩
    | cons c rest =>
      have hc := hrest c rfl
      simp [hc]
  simp [digitsRule, List.takeWhile_append_of_pos hds, List.dropWhile_append_of_pos hds, htake, hne]

theorem digitsRule_sound {cs ds rest : List Char} (h : digitsRule cs = some (ds, rest)) :
    Digits ds ∧ cs = ds ++ rest := by
  obtain ⟨hne, heq⟩ := Option.ite_none_left_eq_some.1 h
  obtain ⟨rfl, rfl⟩ := Prod.mk.inj (Option.some.inj heq)
  refine ⟨⟨by simpa using hne, fun c hc => ?_⟩, (List.takeWhile_append_dropWhile).symm⟩
  exact List.all_eq_true.1 List.all_takeWhile c hc

theorem wholeRule_sound {cs ds rest : List Char} (h : wholeRule cs = some (ds, rest)) :
    Digits ds ∧ (∀ d ds', ds ≠ '0' :: d :: ds') ∧ cs = ds ++ rest := by
  unfold wholeRule at h
  split at h
  · simp at h
  · next hzero =>
    obtain ⟨hdigits, hcs⟩ := digitsRule_sound h
    refine ⟨hdigits, ?_, hcs⟩
    rintro d ds' rfl
    exact hzero d ds' rest h

theorem wholeRule_append {ds rest : List Char} (hds : Digits ds)
    (hzero : ∀ d ds', ds ≠ '0' :: d :: ds') (hrest : ∀ c ∈ rest.head?, c.isDigit = false) :
    wholeRule (ds ++ rest) = some (ds, rest) := by
  have hread := digitsRule_append hds.2 hds.1 hrest
  unfold wholeRule
  split
  · next heq =>
    rw [hread] at heq
    exact absurd (Prod.mk.inj (Option.some.inj heq)).1 (hzero _ _)
  · exact hread

theorem fractionRule_sound {cs rest : List Char} {f : Option (List Char)}
    (h : fractionRule cs = some (f, rest)) :
    (∀ ds ∈ f, Digits ds) ∧ cs = fractionText f ++ rest := by
  unfold fractionRule at h
  split at h
  · obtain ⟨⟨ds, rest'⟩, hread, heq⟩ := Option.map_eq_some_iff.1 h
    obtain ⟨rfl, rfl⟩ := Prod.mk.inj heq
    obtain ⟨hdigits, rfl⟩ := digitsRule_sound hread
    exact ⟨by simpa using hdigits, rfl⟩
  · obtain ⟨rfl, rfl⟩ := Prod.mk.inj (Option.some.inj h)
    exact ⟨by simp, rfl⟩

theorem fractionRule_append {f : Option (List Char)} {rest : List Char}
    (hf : ∀ ds ∈ f, Digits ds) (hrest : ∀ c ∈ rest.head?, c.isDigit = false ∧ c ≠ '.') :
    fractionRule (fractionText f ++ rest) = some (f, rest) := by
  cases f with
  | some ds =>
    have hdigits := hf ds rfl
    have hread := digitsRule_append hdigits.2 hdigits.1 fun c hc => (hrest c hc).1
    simp [fractionText, fractionRule, hread]
  | none =>
    show fractionRule rest = _
    unfold fractionRule
    split
    · exact absurd rfl (hrest _ rfl).2
    · rfl

theorem signedRule_sound {cs rest : List Char} {n : Int} (h : signedRule cs = some (n, rest))
    {mark : Char} (hmark : mark = 'e' ∨ mark = 'E') :
    ∃ e : Exponent, e.Legal ∧ e.value = n ∧ mark :: cs = e.text ++ rest := by
  unfold signedRule at h
  split at h
  · obtain ⟨⟨ds, rest'⟩, hread, heq⟩ := Option.map_eq_some_iff.1 h
    obtain ⟨rfl, rfl⟩ := Prod.mk.inj heq
    obtain ⟨hdigits, rfl⟩ := digitsRule_sound hread
    exact ⟨⟨mark, some '-', ds⟩, ⟨hmark, by simp, hdigits⟩, rfl, rfl⟩
  · obtain ⟨⟨ds, rest'⟩, hread, heq⟩ := Option.map_eq_some_iff.1 h
    obtain ⟨rfl, rfl⟩ := Prod.mk.inj heq
    obtain ⟨hdigits, rfl⟩ := digitsRule_sound hread
    exact ⟨⟨mark, some '+', ds⟩, ⟨hmark, by simp, hdigits⟩, rfl, rfl⟩
  · obtain ⟨⟨ds, rest'⟩, hread, heq⟩ := Option.map_eq_some_iff.1 h
    obtain ⟨rfl, rfl⟩ := Prod.mk.inj heq
    obtain ⟨hdigits, rfl⟩ := digitsRule_sound hread
    exact ⟨⟨mark, none, ds⟩, ⟨hmark, by simp, hdigits⟩, rfl, rfl⟩

theorem signedRule_append {e : Exponent} (he : e.Legal) {rest : List Char}
    (hrest : ∀ c ∈ rest.head?, c.isDigit = false) :
    signedRule (e.sign.toList ++ (e.digits ++ rest)) = some (e.value, rest) := by
  obtain ⟨mark, sign, ds⟩ := e
  obtain ⟨_, hsign, hdigits⟩ := he
  have hread := digitsRule_append hdigits.2 hdigits.1 hrest
  cases sign with
  | some c =>
    rcases hsign c rfl with rfl | rfl
    · simp [signedRule, hread, Exponent.value]
    · simp [signedRule, hread, Exponent.value]
  | none =>
    obtain ⟨d, ds', rfl⟩ := List.exists_cons_of_ne_nil hdigits.1
    have hdigit := hdigits.2 d List.mem_cons_self
    show signedRule (d :: (ds' ++ rest)) = _
    unfold signedRule
    split
    · next heq => exact absurd (List.cons.inj heq).1 (ne_of_isDigit hdigit (by decide))
    · next heq => exact absurd (List.cons.inj heq).1 (ne_of_isDigit hdigit (by decide))
    · rw [← List.cons_append, hread]
      rfl

theorem exponentRule_sound {cs rest : List Char} {n : Option Int}
    (h : exponentRule cs = some (n, rest)) :
    ∃ e : Option Exponent, (∀ e' ∈ e, e'.Legal) ∧ e.map Exponent.value = n ∧
      cs = exponentText e ++ rest := by
  unfold exponentRule at h
  split at h
  · obtain ⟨⟨m, rest'⟩, hread, heq⟩ := Option.map_eq_some_iff.1 h
    obtain ⟨rfl, rfl⟩ := Prod.mk.inj heq
    obtain ⟨e, he, rfl, hcs⟩ := signedRule_sound hread (Or.inl rfl)
    exact ⟨some e, by simpa using he, rfl, hcs⟩
  · obtain ⟨⟨m, rest'⟩, hread, heq⟩ := Option.map_eq_some_iff.1 h
    obtain ⟨rfl, rfl⟩ := Prod.mk.inj heq
    obtain ⟨e, he, rfl, hcs⟩ := signedRule_sound hread (Or.inr rfl)
    exact ⟨some e, by simpa using he, rfl, hcs⟩
  · obtain ⟨rfl, rfl⟩ := Prod.mk.inj (Option.some.inj h)
    exact ⟨none, by simp, rfl, rfl⟩

theorem exponentRule_append {e : Option Exponent} (he : ∀ e' ∈ e, e'.Legal) {rest : List Char}
    (hrest : EndsNumber rest) :
    exponentRule (exponentText e ++ rest) = some (e.map Exponent.value, rest) := by
  cases e with
  | some e =>
    have hread := signedRule_append (he e rfl) fun c hc => (hrest c hc).1
    rcases (he e rfl).1 with hmark | hmark
    · simp [exponentText, Exponent.text, hmark, exponentRule, hread]
    · simp [exponentText, Exponent.text, hmark, exponentRule, hread]
  | none =>
    show exponentRule rest = _
    unfold exponentRule
    split
    · exact absurd rfl (hrest _ rfl).2.2.1
    · exact absurd rfl (hrest _ rfl).2.2.2
    · rfl

theorem unsignedRule_sound {negative : Bool} {cs rest : List Char} {n : Number}
    (h : unsignedRule negative cs = some (n, rest)) :
    ∃ m : Numeral, m.negative = negative ∧ m.Legal ∧ m.value? = some n ∧
      cs = m.whole ++ (fractionText m.fraction ++ exponentText m.exponent) ++ rest := by
  unfold unsignedRule at h
  split at h
  · simp at h
  · next whole cs₁ hwhole =>
    split at h
    · simp at h
    · next fraction cs₂ hfraction =>
      split at h
      · simp at h
      · next exponent cs₃ hexponent =>
        obtain ⟨n', hnumber, heq⟩ := Option.map_eq_some_iff.1 h
        obtain ⟨rfl, rfl⟩ := Prod.mk.inj heq
        obtain ⟨hdigits, hzero, rfl⟩ := wholeRule_sound hwhole
        obtain ⟨hplaces, rfl⟩ := fractionRule_sound hfraction
        obtain ⟨e, he, rfl, rfl⟩ := exponentRule_sound hexponent
        exact ⟨⟨negative, whole, fraction, e⟩, rfl, ⟨hdigits, hzero, hplaces, he⟩, hnumber, by simp⟩

theorem numberRule_sound {cs rest : List Char} {n : Number} (h : numberRule cs = some (n, rest)) :
    ∃ m : Numeral, m.Legal ∧ m.value? = some n ∧ cs = m.text ++ rest := by
  unfold numberRule at h
  split at h
  · obtain ⟨m, hsign, hlegal, hvalue, rfl⟩ := unsignedRule_sound h
    exact ⟨m, hlegal, hvalue, by simp [Numeral.text, hsign]⟩
  · obtain ⟨m, hsign, hlegal, hvalue, rfl⟩ := unsignedRule_sound h
    exact ⟨m, hlegal, hvalue, by simp [Numeral.text, hsign]⟩

theorem head_exponentText {e : Option Exponent} (he : ∀ e' ∈ e, e'.Legal) {rest : List Char}
    (hrest : EndsNumber rest) :
    ∀ c ∈ (exponentText e ++ rest).head?, c.isDigit = false ∧ c ≠ '.' := by
  cases e with
  | some e =>
    intro c hc
    obtain rfl : e.mark = c := by simpa [exponentText, Exponent.text] using hc
    rcases (he e rfl).1 with hmark | hmark
    · rw [hmark]
      decide
    · rw [hmark]
      decide
  | none => exact fun c hc => ⟨(hrest c hc).1, (hrest c hc).2.1⟩

theorem unsignedRule_append {m : Numeral} (hm : m.Legal) {rest : List Char}
    (hrest : EndsNumber rest) :
    unsignedRule m.negative (m.whole ++ (fractionText m.fraction ++
      (exponentText m.exponent ++ rest))) = m.value?.map (·, rest) := by
  obtain ⟨hdigits, hzero, hfraction, hexponent⟩ := hm
  have hhead := head_exponentText hexponent hrest
  have hplaces := fractionRule_append hfraction hhead
  have hwhole : wholeRule (m.whole ++ (fractionText m.fraction ++
      (exponentText m.exponent ++ rest))) = some (m.whole, fractionText m.fraction ++
        (exponentText m.exponent ++ rest)) := by
    refine wholeRule_append hdigits hzero ?_
    cases hf : m.fraction with
    | some ds => simp [fractionText]
    | none => exact fun c hc => (hhead c hc).1
  simp [unsignedRule, hwhole, hplaces, exponentRule_append hexponent hrest, Numeral.value?]

theorem numberRule_text {m : Numeral} (hm : m.Legal) {rest : List Char} (hrest : EndsNumber rest) :
    numberRule (m.text ++ rest) = m.value?.map (·, rest) := by
  have hread := unsignedRule_append hm hrest
  cases hsign : m.negative with
  | true =>
    rw [hsign] at hread
    simp [Numeral.text, hsign, numberRule, hread]
  | false =>
    rw [hsign] at hread
    obtain ⟨d, ds, hwhole⟩ := List.exists_cons_of_ne_nil hm.1.1
    have hdigit : d.isDigit = true := hm.1.2 d (hwhole ▸ List.mem_cons_self)
    have htext : m.text ++ rest = m.whole ++ (fractionText m.fraction ++
        (exponentText m.exponent ++ rest)) := by simp [Numeral.text, hsign]
    rw [htext, ← hread]
    unfold numberRule
    split
    · next heq =>
      rw [hwhole] at heq
      exact absurd (List.cons.inj heq).1 (ne_of_isDigit hdigit (by decide))
    · rfl

end Json
end LispSyntax
