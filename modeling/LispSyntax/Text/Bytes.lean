/-
Texts measured in bytes.

A text is a list of characters, and its width is the number of bytes of its
UTF-8 form.  `dropBytes` cuts a text at a byte offset.  An offset inside a
character, or past the end, is read as the end, so that the cut never splits a
character.  `slice?` is strict about its two offsets and gives nothing there.
-/
namespace LispSyntax
namespace Text

/-- The bytes of the UTF-8 form of a text. -/
def width : List Char → Nat
  | [] => 0
  | c :: cs => c.utf8Size + width cs

@[simp] theorem width_nil : width [] = 0 := rfl

@[simp] theorem width_cons (c : Char) (cs : List Char) :
    width (c :: cs) = c.utf8Size + width cs := rfl

@[simp] theorem width_append (cs ds : List Char) : width (cs ++ ds) = width cs + width ds := by
  induction cs with
  | nil => simp
  | cons c cs ih => simp [ih, Nat.add_assoc]

/-- Of two beginnings of one text the narrower begins the wider. -/
theorem exists_append_of_width_le {cs cs' ds ds' : List Char} (h : cs ++ cs' = ds ++ ds')
    (hle : width cs ≤ width ds) : ∃ mid, ds = cs ++ mid ∧ cs' = mid ++ ds' := by
  rcases List.append_eq_append_iff.1 h with ⟨mid, hds, hcs'⟩ | ⟨mid, hcs, hds'⟩
  · exact ⟨mid, hds, hcs'⟩
  · cases mid with
    | nil => exact ⟨[], by simpa using hcs.symm, by simpa using hds'.symm⟩
    | cons c mid =>
      have hpos := c.utf8Size_pos
      rw [hcs, width_append, width_cons] at hle
      omega

/-- A cut of a text in two parts lies in the first part, its end included, or in the
second. -/
theorem cut_append {cs ds past rest : List Char} (h : cs ++ ds = past ++ rest) :
    (∃ mid, cs = past ++ mid ∧ rest = mid ++ ds) ∨
      ∃ mid, mid ≠ [] ∧ past = cs ++ mid ∧ ds = mid ++ rest := by
  rcases List.append_eq_append_iff.1 h with ⟨mid, hpast, hds⟩ | ⟨mid, hcs, hrest⟩
  · by_cases hmid : mid = []
    · subst hmid
      exact Or.inl ⟨[], by simpa using hpast.symm, by simpa using hds.symm⟩
    · exact Or.inr ⟨mid, hmid, hpast, hds⟩
  · exact Or.inl ⟨mid, hcs, hrest⟩

/-- A cut of a text in two parts lies in the second part, its start included, or in the
first. -/
theorem cut_append' {cs ds past rest : List Char} (h : cs ++ ds = past ++ rest) :
    (∃ mid, past = cs ++ mid ∧ ds = mid ++ rest) ∨
      ∃ mid, mid ≠ [] ∧ cs = past ++ mid ∧ rest = mid ++ ds := by
  rcases cut_append h with ⟨mid, hcs, hrest⟩ | ⟨mid, _, hpast, hds⟩
  · by_cases hmid : mid = []
    · subst hmid
      exact Or.inl ⟨[], by simpa using hcs.symm, by simpa using hrest.symm⟩
    · exact Or.inr ⟨mid, hmid, hcs, hrest⟩
  · exact Or.inl ⟨mid, hpast, hds⟩

/-- What is left of a text after its first `n` bytes.  Nothing is left when the
cut falls inside a character or past the end. -/
def dropBytes : Nat → List Char → List Char
  | 0, cs => cs
  | _ + 1, [] => []
  | n + 1, c :: cs => if c.utf8Size ≤ n + 1 then dropBytes (n + 1 - c.utf8Size) cs else []

@[simp] theorem dropBytes_zero (cs : List Char) : dropBytes 0 cs = cs := by
  cases cs <;> rfl

@[simp] theorem dropBytes_nil (n : Nat) : dropBytes n [] = [] := by
  cases n <;> rfl

/-- A cut after whole characters leaves the characters behind it. -/
theorem dropBytes_width_append (cs ds : List Char) : dropBytes (width cs) (cs ++ ds) = ds := by
  induction cs with
  | nil => simp
  | cons c cs ih =>
    have hpos := c.utf8Size_pos
    obtain ⟨n, hn⟩ : ∃ n, width (c :: cs) = n + 1 := ⟨c.utf8Size + width cs - 1, by simp; omega⟩
    simp only [List.cons_append, hn, dropBytes]
    rw [width_cons] at hn
    rw [if_pos (by omega), show n + 1 - c.utf8Size = width cs by omega, ih]

/-- A cut never makes characters up: what is left ends the text. -/
theorem dropBytes_suffix (n : Nat) (cs : List Char) : dropBytes n cs <:+ cs := by
  induction cs generalizing n with
  | nil => simp
  | cons c cs ih =>
    cases n with
    | zero => simp
    | succ n =>
      unfold dropBytes
      split
      · exact (ih _).trans (List.suffix_cons c cs)
      · exact List.nil_suffix

/-- Nothing is left behind an offset that is no place between two characters. -/
theorem dropBytes_eq_nil {n : Nat} {cs : List Char} (h : ∀ past, past <+: cs → width past ≠ n) :
    dropBytes n cs = [] := by
  induction cs generalizing n with
  | nil => exact dropBytes_nil n
  | cons c cs ih =>
    cases n with
    | zero => exact absurd rfl (h [] List.nil_prefix)
    | succ n =>
      by_cases hle : c.utf8Size ≤ n + 1
      · rw [dropBytes, if_pos hle]
        apply ih
        intro past hpast hwidth
        apply h (c :: past) (List.cons_prefix_cons.2 ⟨rfl, hpast⟩)
        rw [width_cons]
        omega
      · rw [dropBytes, if_neg hle]

/-! ## Slices -/

/-- The text cut at a byte offset.  No cut falls inside a character or past the
end. -/
def cut? : Nat → List Char → Option (List Char × List Char)
  | 0, cs => some ([], cs)
  | _ + 1, [] => none
  | n + 1, c :: cs =>
    if c.utf8Size ≤ n + 1 then
      (cut? (n + 1 - c.utf8Size) cs).map fun p => (c :: p.1, p.2)
    else none

/-- The characters from one byte offset up to another. -/
def slice? (start stop : Nat) (cs : List Char) : Option (List Char) :=
  match cut? stop cs with
  | some (front, _) => (cut? start front).map (·.2)
  | none => none

theorem cut?_width_append (cs ds : List Char) : cut? (width cs) (cs ++ ds) = some (cs, ds) := by
  induction cs with
  | nil => cases ds <;> rfl
  | cons c cs ih =>
    have hpos := c.utf8Size_pos
    obtain ⟨n, hn⟩ : ∃ n, width (c :: cs) = n + 1 := ⟨c.utf8Size + width cs - 1, by simp; omega⟩
    simp only [List.cons_append, hn, cut?]
    rw [width_cons] at hn
    rw [if_pos (by omega), show n + 1 - c.utf8Size = width cs by omega, ih]
    rfl

theorem slice?_append (past cs behind : List Char) :
    slice? (width past) (width past + width cs) (past ++ (cs ++ behind)) = some cs := by
  rw [slice?, ← width_append, ← List.append_assoc, cut?_width_append]
  simp only [cut?_width_append, Option.map_some]

theorem cut?_eq_some {n : Nat} {cs front back : List Char} (h : cut? n cs = some (front, back)) :
    cs = front ++ back ∧ width front = n := by
  induction cs generalizing n front with
  | nil =>
    cases n with
    | zero =>
      obtain ⟨rfl, rfl⟩ := Prod.mk.inj (Option.some.inj h)
      exact ⟨rfl, rfl⟩
    | succ n => simp [cut?] at h
  | cons c cs ih =>
    cases n with
    | zero =>
      obtain ⟨rfl, rfl⟩ := Prod.mk.inj (Option.some.inj h)
      exact ⟨rfl, rfl⟩
    | succ n =>
      unfold cut? at h
      split at h
      · obtain ⟨⟨front', back'⟩, hcut, hp⟩ := Option.map_eq_some_iff.1 h
        obtain ⟨rfl, rfl⟩ := Prod.mk.inj hp
        obtain ⟨rfl, hwidth⟩ := ih hcut
        refine ⟨rfl, ?_⟩
        show c.utf8Size + width front' = n + 1
        omega
      · simp at h

/-- Both ends of a slice stand between characters. -/
theorem slice?_eq_some {start stop : Nat} {cs ds : List Char} (h : slice? start stop cs = some ds) :
    ∃ past behind, cs = past ++ (ds ++ behind) ∧ width past = start ∧
      width past + width ds = stop := by
  unfold slice? at h
  split at h
  · next front back hcut =>
    obtain ⟨rfl, rfl⟩ := cut?_eq_some hcut
    obtain ⟨⟨past, ds'⟩, hstart, rfl⟩ := Option.map_eq_some_iff.1 h
    obtain ⟨rfl, rfl⟩ := cut?_eq_some hstart
    exact ⟨past, back, List.append_assoc .., rfl, (width_append ..).symm⟩
  · simp at h

/-- Every offset in a text stands between two characters or inside one. -/
theorem exists_split_at {n : Nat} {cs : List Char} (h : n ≤ width cs) :
    ∃ past rest, cs = past ++ rest ∧ (width past = n ∨
      ∃ c behind, rest = c :: behind ∧ width past < n ∧ n < width past + c.utf8Size) := by
  induction cs generalizing n with
  | nil => exact ⟨[], [], rfl, Or.inl (Nat.le_zero.1 h).symm⟩
  | cons c cs ih =>
    rw [width_cons] at h
    rcases Nat.lt_or_ge n c.utf8Size with hlt | hge
    · refine ⟨[], c :: cs, rfl, ?_⟩
      rcases Nat.eq_zero_or_pos n with rfl | hpos
      · exact Or.inl rfl
      · exact Or.inr ⟨c, cs, rfl, hpos, by rw [width_nil]; omega⟩
    · obtain ⟨past, rest, rfl, hplace⟩ := ih (n := n - c.utf8Size) (by omega)
      refine ⟨c :: past, rest, rfl, ?_⟩
      rw [width_cons]
      rcases hplace with hbetween | ⟨d, behind, rfl, hlt, hgt⟩
      · exact Or.inl (by omega)
      · exact Or.inr ⟨d, behind, rfl, by omega, by omega⟩

/-- An offset inside a character is not the width of what begins the text. -/
theorem width_ne_of_inside {n : Nat} {cs ds past behind : List Char} {c : Char}
    (h : past ++ behind = cs ++ c :: ds) (hlt : width cs < n)
    (hgt : n < width cs + c.utf8Size) : width past ≠ n := by
  intro hn
  obtain ⟨mid, rfl, hmid⟩ := exists_append_of_width_le h.symm (by omega)
  rw [width_append] at hn
  cases mid with
  | nil => rw [width_nil] at hn; omega
  | cons d mid =>
    obtain rfl := (List.cons.inj hmid).1
    rw [width_cons] at hn
    omega

end Text
end LispSyntax
