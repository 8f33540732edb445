/-
What the texts of a fault tell.

A fault is reported as text: the path to a part of the document, and a message.
`resolveText?` follows the text of a path through a document, without the path.  It comes
to the part that the path leads to, and each index that stands in the text is that of an
item on the way there.  Nothing is lost in the texts: the text of a path determines the
path, and the message of a fault the fault.
-/
import Mathlib.Data.List.Basic
import LispSyntax.Document.Fault
import LispSyntax.Json.Value

namespace LispSyntax

/-! ## Steps into a value -/

namespace Json

/-- The value of the member of an object with the given name. -/
def part? (name : String) : Json → Option Json
  | .object members => member? name members
  | _ => none

/-- The item of an array at an index. -/
def item? (index : Nat) : Json → Option Json
  | .array items => items[index]?
  | _ => none

/-- The value that a text of steps leads to.  A number in brackets leads to the item of an
array, and `.content` to the content of a node. -/
def follow? (v : Json) (steps : List Char) : Option Json :=
  match steps with
  | [] => some v
  | '.' :: 'c' :: 'o' :: 'n' :: 't' :: 'e' :: 'n' :: 't' :: rest =>
    (v.part? "content").bind (follow? · rest)
  | '[' :: cs =>
    match _hrest : cs.dropWhile Char.isDigit with
    | ']' :: rest =>
      if (cs.takeWhile Char.isDigit).isEmpty then none
      else (v.item? (Nat.ofDigitChars 10 (cs.takeWhile Char.isDigit) 0)).bind (follow? · rest)
    | _ => none
  | _ => none
termination_by steps.length
decreasing_by
  · simp only [List.length_cons]
    omega
  · have hle := (List.dropWhile_suffix Char.isDigit (l := cs)).length_le
    rw [_hrest, List.length_cons] at hle
    rw [List.length_cons]
    omega

theorem isDigit_of_mem_decimal {index : Nat} : ∀ c ∈ Nat.toDigits 10 index, c.isDigit = true :=
  fun _ hc => Nat.isDigit_of_mem_toDigits (by decide) (by decide) hc

theorem follow?_item (v : Json) (index : Nat) (cs : List Char) :
    v.follow? ('[' :: (Nat.toDigits 10 index ++ ']' :: cs)) =
      (v.item? index).bind (·.follow? cs) := by
  have htake : (Nat.toDigits 10 index ++ ']' :: cs).takeWhile Char.isDigit =
      Nat.toDigits 10 index := by
    rw [List.takeWhile_append_of_pos isDigit_of_mem_decimal]
    simp
  have hdrop : (Nat.toDigits 10 index ++ ']' :: cs).dropWhile Char.isDigit = ']' :: cs := by
    rw [List.dropWhile_append_of_pos isDigit_of_mem_decimal]
    simp
  have hne : (Nat.toDigits 10 index).isEmpty = false := by simp
  rw [follow?]
  split
  · next rest hrest =>
    obtain rfl : rest = cs := by simpa [hdrop] using hrest.symm
    rw [htake, hne, Nat.ofDigitChars_ten_toDigits]
    rfl
  · next hother => exact absurd hdrop (hother cs)

theorem follow?_content (v : Json) (cs : List Char) :
    v.follow? (".content".toList ++ cs) = (v.part? "content").bind (·.follow? cs) := by
  show v.follow? ('.' :: 'c' :: 'o' :: 'n' :: 't' :: 'e' :: 'n' :: 't' :: cs) = _
  rw [follow?]

end Json

namespace Document

/-! ## Paths -/

/-- The part of a document at the path with the given text. -/
def resolveText? (v : Json) (text : String) : Option Json :=
  match text.toList with
  | '$' :: steps => v.follow? steps
  | _ => none

namespace Path

/-- The part of a document at a path. -/
def resolve? (v : Json) : Path → Option Json
  | .root => some v
  | .item path index => (path.resolve? v).bind (Json.item? index)
  | .content path => (path.resolve? v).bind (Json.part? "content")

/-- The path leads through the item at an index of the array at a path. -/
def Through : Path → Path → Nat → Prop
  | .root, _, _ => False
  | .item path i, array, index => (path = array ∧ i = index) ∨ path.Through array index
  | .content path, array, index => path.Through array index

/-- The characters of a path behind the first, which stands for the document. -/
def steps : Path → List Char
  | .root => []
  | .item path index => path.steps ++ '[' :: (Nat.toDigits 10 index ++ [']'])
  | .content path => path.steps ++ ".content".toList

theorem toList_index (index : Nat) :
    s!"[{index}]".toList = '[' :: (Nat.toDigits 10 index ++ [']']) := by
  show ("[" ++ toString index ++ "]").toList = _
  simp

theorem toList_text (path : Path) : path.text.toList = '$' :: path.steps := by
  induction path with
  | root => rfl
  | item path index ih =>
    show (path.text ++ "[" ++ toString index ++ "]").toList = _
    simp [steps, ih]
  | content path ih =>
    show (path.text ++ ".content").toList = _
    simp [steps, ih]

theorem follow?_steps (v : Json) (path : Path) (cs : List Char) :
    v.follow? (path.steps ++ cs) = (path.resolve? v).bind (·.follow? cs) := by
  induction path generalizing cs with
  | root => rfl
  | item path index ih =>
    have hsplit : (Path.item path index).steps ++ cs =
        path.steps ++ '[' :: (Nat.toDigits 10 index ++ ']' :: cs) := by simp [steps]
    rw [hsplit, ih, resolve?, Option.bind_assoc]
    simp only [Json.follow?_item]
  | content path ih =>
    rw [steps, List.append_assoc, ih, resolve?, Option.bind_assoc]
    simp only [Json.follow?_content]

/-- The text of a path leads to the part that the path leads to. -/
theorem resolveText?_text (v : Json) (path : Path) :
    resolveText? v path.text = path.resolve? v := by
  have hfollow := follow?_steps v path []
  rw [List.append_nil] at hfollow
  rw [resolveText?, toList_text]
  show v.follow? path.steps = _
  rw [hfollow]
  cases path.resolve? v with
  | none => rfl
  | some w => simp [Json.follow?]

/-! ## Indices in the text -/

theorem toDigits_inj {i j : Nat} (h : Nat.toDigits 10 i = Nat.toDigits 10 j) : i = j := by
  have hvalue := congrArg (fun ds => Nat.ofDigitChars 10 ds 0) h
  simpa using hvalue

theorem not_mem_decimal {c : Char} (hc : c.isDigit = false) (index : Nat) :
    c ∉ Nat.toDigits 10 index := by
  intro hmem
  have hdigit := Json.isDigit_of_mem_decimal c hmem
  rw [hc] at hdigit
  simp at hdigit

theorem open_not_mem_index (index : Nat) : '[' ∉ Nat.toDigits 10 index ++ [']'] := by
  simpa using not_mem_decimal (by decide) index

/-- An index that stands in a text stands in front of the last step, or is the last
step. -/
theorem split_index {x : Char} {xs tail before digits rest : List Char} (hdigits : x ∉ digits)
    (hclose : x ≠ ']') (htail : '[' ∉ tail)
    (h : xs ++ x :: tail = before ++ '[' :: (digits ++ ']' :: rest)) :
    (∃ more, xs = before ++ '[' :: (digits ++ ']' :: more)) ∨
      xs = before ∧ x :: tail = '[' :: (digits ++ ']' :: rest) := by
  rcases List.append_eq_append_iff.1 h with ⟨mid, rfl, hlast⟩ | ⟨mid, rfl, hindex⟩
  · cases mid with
    | nil => exact Or.inr ⟨(List.append_nil xs).symm, hlast⟩
    | cons y mid =>
      refine absurd ?_ htail
      rw [(List.cons.inj hlast).2]
      simp
  · cases mid with
    | nil => exact Or.inr ⟨List.append_nil before, hindex.symm⟩
    | cons y mid =>
      obtain ⟨rfl, hmid⟩ := List.cons.inj hindex
      -- the last step begins behind the bracket that closes the index
      rcases List.append_eq_append_iff.1 hmid with ⟨more, rfl, hmore⟩ | ⟨more, rfl, hmore⟩
      · cases more with
        | nil => exact absurd (List.cons.inj hmore).1.symm hclose
        | cons z more =>
          obtain ⟨rfl, -⟩ := List.cons.inj hmore
          exact Or.inl ⟨more, rfl⟩
      · cases more with
        | nil => exact absurd (List.cons.inj hmore).1 hclose
        | cons z more =>
          obtain ⟨rfl, -⟩ := List.cons.inj hmore
          exact absurd (by simp) hdigits

/-- An index in the text of a path is that of an item on the way, and the text in front of
it is that of the array. -/
theorem exists_through {path : Path} {index : Nat} {before rest : List Char}
    (h : path.steps = before ++ '[' :: (Nat.toDigits 10 index ++ ']' :: rest)) :
    ∃ array : Path, path.Through array index ∧ array.steps = before := by
  induction path generalizing rest with
  | root => simp [steps] at h
  | item path i ih =>
    rcases split_index (not_mem_decimal (by decide) index) (by decide) (open_not_mem_index i) h with
      ⟨more, hmore⟩ | ⟨hbefore, hlast⟩
    · obtain ⟨array, hthrough, harray⟩ := ih hmore
      exact ⟨array, Or.inr hthrough, harray⟩
    · have hdigits := (List.append_cons_inj_of_notMem
        (not_mem_decimal (c := ']') (by decide) i) (by simp)).1 (List.cons.inj hlast).2
      exact ⟨path, Or.inl ⟨rfl, toDigits_inj hdigits.1⟩, hbefore⟩
  | content path ih =>
    have hcontent : (Path.content path).steps = path.steps ++ '.' :: "content".toList := rfl
    rw [hcontent] at h
    rcases split_index (not_mem_decimal (by decide) index) (by decide) (by simp) h with
      ⟨more, hmore⟩ | ⟨-, hlast⟩
    · exact ih hmore
    · simp at hlast

/-! ## Nothing is lost -/

/-- Equal texts are equal on both sides of the last place where a character stands. -/
theorem last_cons_inj {x : Char} {xs ys before rest : List Char}
    (h : xs ++ x :: ys = before ++ x :: rest) (hys : x ∉ ys) (hrest : x ∉ rest) :
    xs = before ∧ ys = rest := by
  rcases List.append_eq_append_iff.1 h with ⟨mid, rfl, hmid⟩ | ⟨mid, rfl, hmid⟩
  · cases mid with
    | nil => exact ⟨(List.append_nil xs).symm, (List.cons.inj hmid).2⟩
    | cons y mid =>
      refine absurd ?_ hys
      rw [(List.cons.inj hmid).2]
      simp
  · cases mid with
    | nil => exact ⟨List.append_nil before, (List.cons.inj hmid).2.symm⟩
    | cons y mid =>
      refine absurd ?_ hrest
      rw [(List.cons.inj hmid).2]
      simp

theorem steps_item_ne_content (p q : Path) (index : Nat) :
    (Path.item p index).steps ≠ (Path.content q).steps := by
  intro h
  have hitem : (Path.item p index).steps =
      (p.steps ++ '[' :: Nat.toDigits 10 index) ++ [']'] := by simp [steps]
  have hcontent : (Path.content q).steps = (q.steps ++ ".conten".toList) ++ ['t'] := by
    simp [steps]
  rw [hitem, hcontent] at h
  exact absurd (List.append_inj_right' h rfl) (by decide)

theorem steps_inj {p q : Path} (h : p.steps = q.steps) : p = q := by
  induction p generalizing q with
  | root =>
    cases q with
    | root => rfl
    | item q j => simp [steps] at h
    | content q => simp [steps] at h
  | item p i ih =>
    cases q with
    | root => simp [steps] at h
    | item q j =>
      obtain ⟨hsteps, hindex⟩ := last_cons_inj h (open_not_mem_index i) (open_not_mem_index j)
      obtain rfl := toDigits_inj (List.append_cancel_right hindex)
      rw [ih hsteps]
    | content q => exact absurd h (steps_item_ne_content p q i)
  | content p ih =>
    cases q with
    | root => simp [steps] at h
    | item q j => exact absurd h.symm (steps_item_ne_content q p j)
    | content q => rw [ih (List.append_cancel_right h)]

/-- A path is determined by its text. -/
theorem text_inj {p q : Path} : p.text = q.text ↔ p = q := by
  constructor
  · intro h
    have hsteps := congrArg String.toList h
    rw [toList_text, toList_text] at hsteps
    exact steps_inj (List.cons.inj hsteps).2
  · rintro rfl
    rfl

theorem space_not_mem_text (path : Path) : ' ' ∉ path.text.toList := by
  have hsteps : ' ' ∉ path.steps := by
    induction path with
    | root => simp [steps]
    | item path index ih => simpa [steps, ih] using not_mem_decimal (by decide) index
    | content path ih => simpa [steps] using ih
  simpa [toList_text] using hsteps

end Path

/-! ## Messages -/

theorem Shape.text_inj {a b : Shape} : a.text = b.text ↔ a = b := by
  cases a <;> cases b <;> simp [text]

namespace Fault

/-- The text of the path that a fault names. -/
def pathText? : Fault → Option String
  | .shape _ path => some path.text
  | .unknownType _ path => some path.text
  | _ => none

theorem message_shape (expected : Shape) (path : Path) :
    (shape expected path).message = "expected " ++ expected.text ++ " at " ++ path.text := rfl

theorem message_unknownType (found : String) (path : Path) :
    (unknownType found path).message =
      "unknown node type '" ++ found ++ "'" ++ " at " ++ path.text := by
  show "unknown node type '" ++ found ++ "' at " ++ path.text = _
  exact String.toList_inj.1 (by simp)

/-- A message ends with the path that the fault names. -/
theorem exists_message_eq {f : Fault} {text : String} (h : f.pathText? = some text) :
    ∃ what, f.message = what ++ " at " ++ text := by
  cases f with
  | shape expected path =>
    obtain rfl := Option.some.inj h
    exact ⟨_, message_shape expected path⟩
  | unknownType found path =>
    obtain rfl := Option.some.inj h
    exact ⟨_, message_unknownType found path⟩
  | _ => simp [pathText?] at h

theorem at_inj {a b : String} {p q : Path} (h : a ++ " at " ++ p.text = b ++ " at " ++ q.text) :
    a = b ∧ p = q := by
  have hlist := congrArg String.toList h
  have hsplit : ∀ (what : String) (path : Path), (what ++ " at " ++ path.text).toList =
      (what.toList ++ " at".toList) ++ ' ' :: path.text.toList := by simp
  rw [hsplit, hsplit] at hlist
  obtain ⟨hwhat, htext⟩ := Path.last_cons_inj hlist p.space_not_mem_text q.space_not_mem_text
  exact ⟨String.toList_inj.1 (List.append_cancel_right hwhat),
    Path.text_inj.1 (String.toList_inj.1 htext)⟩

/-- The character that a message starts with. -/
def initial : Fault → Char
  | .malformed => 'i'
  | .shape _ _ => 'e'
  | .unknownType _ _ => 'u'
  | .tooDeep => 'n'

theorem head?_message (f : Fault) : f.message.toList.head? = some f.initial := by
  cases f with
  | malformed => rfl
  | shape expected path => simp [message_shape, initial]
  | unknownType found path => simp [message_unknownType, initial]
  | tooDeep => rfl

/-- A fault is determined by its message. -/
theorem message_inj {f g : Fault} : f.message = g.message ↔ f = g := by
  constructor
  · intro h
    have hinitial : f.initial = g.initial := by
      have hhead := congrArg (fun m => m.toList.head?) h
      simpa [head?_message] using hhead
    cases f with
    | malformed => cases g <;> simp [initial] at hinitial ⊢
    | tooDeep => cases g <;> simp [initial] at hinitial ⊢
    | shape expected path =>
      cases g with
      | shape expected' path' =>
        rw [message_shape, message_shape] at h
        obtain ⟨hwhat, rfl⟩ := at_inj h
        obtain rfl := Shape.text_inj.1 ((String.append_right_inj _).1 hwhat)
        rfl
      | _ => simp [initial] at hinitial
    | unknownType found path =>
      cases g with
      | unknownType found' path' =>
        rw [message_unknownType, message_unknownType] at h
        obtain ⟨hwhat, rfl⟩ := at_inj h
        have hfound := (String.append_left_inj _).1 hwhat
        obtain rfl := (String.append_right_inj _).1 hfound
        rfl
      | _ => simp [initial] at hinitial
  · rintro rfl
    rfl

end Fault
end Document
end LispSyntax
