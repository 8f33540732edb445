/-
The schema of documents.

`Represents` says which documents stand for a node, without saying how one is decoded:
a record of fields may be written as an object or as an array of just these, other
members of an object do not count, and a list holds documents of its children.  A
document is decoded to given trees if and only if it represents them and they nest no
deeper than is allowed.  Each part of the decoder has an equation with a part of the
schema, and the decoder of nodes follows by recursion on the tree.
-/
import LispSyntax.Proofs.DocumentValue
import Mathlib.Data.List.Forall2

namespace LispSyntax

/-! ## Members -/

/-- The last member of an object with the given name has the given value. -/
def Json.Has (members : List (String × Json)) (name : String) (v : Json) : Prop :=
  ∃ before after, members = before ++ (name, v) :: after ∧ ∀ m ∈ after, m.1 ≠ name

theorem Json.member?_eq_some_iff {members : List (String × Json)} {name : String} {v : Json} :
    member? name members = some v ↔ Has members name v := by
  rw [member?, List.lookup_eq_some_iff]
  constructor
  · rintro ⟨after, before, hsplit, hafter⟩
    refine ⟨before.reverse, after.reverse, ?_, fun m hm hname => ?_⟩
    · rw [← List.reverse_reverse members, hsplit]
      simp
    · have hne := hafter m (List.mem_reverse.1 hm)
      simp [hname] at hne
  · rintro ⟨before, after, rfl, hafter⟩
    refine ⟨after.reverse, before.reverse, by simp, fun m hm => ?_⟩
    have hne := hafter m (List.mem_reverse.1 hm)
    simpa using Ne.symm hne

namespace Document

/-! ## The schema -/

/-- The value is an object with the named fields, or an array of just these fields. -/
def IsRecord (names : List String) (fields : List Json) : Json → Prop
  | .object members => List.Forall₂ (Json.Has members) names fields
  | .array items => items = fields ∧ fields.length = names.length
  | _ => False

/-- The value is a natural number of 64 bits. -/
def IsWord (n : Nat) (v : Json) : Prop := v = .number (.whole n) ∧ n < Nat.pow 2 64

def IsPosition (p : Position) (v : Json) : Prop :=
  ∃ o l c, IsRecord ["offset", "line", "column"] [o, l, c] v ∧
    IsWord p.offset o ∧ IsWord p.line l ∧ IsWord p.column c

def IsSpan (s : Span Position) (v : Json) : Prop :=
  ∃ a b, IsRecord ["start", "end"] [a, b] v ∧ IsPosition s.start a ∧ IsPosition s.stop b

/-- The value is an object of a node with the given span, type and content. -/
def HasParts (s : Span Position) (type : String) (content : Json) : Json → Prop
  | .object members =>
    (∃ location, Json.Has members "location" location ∧ IsSpan s location) ∧ s.start ≤ s.stop ∧
      Json.Has members "type" (.string type) ∧ Json.Has members "content" content
  | _ => False

mutual
/-- The value is a document of the node. -/
def Represents : Node Position → Json → Prop
  | .atom s text, v => HasParts s "atom" (.string text) v
  | .string s text, v => HasParts s "string" (.string text) v
  | .list s ns, v => ∃ items, HasParts s "list" (.array items) v ∧ RepresentsAll ns items ∧
      ∀ n ∈ ns, s.Encloses n.span

/-- The values are documents of the nodes in order. -/
def RepresentsAll : List (Node Position) → List Json → Prop
  | [], vs => vs = []
  | n :: ns, vs => ∃ w ws, vs = w :: ws ∧ Represents n w ∧ RepresentsAll ns ws
end

/-! ## Parts of a document -/

theorem mapM_eq_some_iff {α β : Type} {f : α → Option β} {as : List α} {bs : List β} :
    as.mapM f = some bs ↔ List.Forall₂ (fun a b => f a = some b) as bs := by
  induction as generalizing bs with
  | nil =>
    rw [List.forall₂_nil_left_iff]
    exact ⟨fun h => (Option.some.inj h).symm, fun h => h ▸ rfl⟩
  | cons a as ih =>
    cases bs with
    | nil => simp [Option.bind_eq_some_iff]
    | cons b bs => simp [Option.bind_eq_some_iff, ih]

theorem fields?_eq_some_iff {names : List String} {fields : List Json} {v : Json} :
    fields? names v = some fields ↔ IsRecord names fields v := by
  cases v with
  | object members =>
    rw [fields?, mapM_eq_some_iff, IsRecord]
    simp only [Json.member?_eq_some_iff]
  | array items =>
    rw [fields?, IsRecord, Option.ite_none_right_eq_some, Option.some.injEq, and_comm]
    exact and_congr_right fun heq => by rw [heq]
  | _ => simp [fields?, IsRecord]

theorem toWord?_eq_some_iff {v : Json} {n : Nat} : toWord? v = some n ↔ IsWord n v := by
  constructor
  · intro h
    unfold toWord? at h
    split at h
    · next m =>
      obtain ⟨hm, hsome⟩ := Option.ite_none_right_eq_some.1 h
      obtain rfl := Option.some.inj hsome
      exact ⟨rfl, hm⟩
    · simp at h
  · rintro ⟨rfl, hn⟩
    exact toWord?_whole hn

theorem toPosition?_eq_some_iff {v : Json} {p : Position} :
    toPosition? v = some p ↔ IsPosition p v := by
  constructor
  · intro h
    unfold toPosition? at h
    split at h
    · next o l c hfields =>
      split at h
      · next o' l' c' ho hl hc =>
        obtain rfl := Option.some.inj h
        exact ⟨o, l, c, fields?_eq_some_iff.1 hfields, toWord?_eq_some_iff.1 ho,
          toWord?_eq_some_iff.1 hl, toWord?_eq_some_iff.1 hc⟩
      · simp at h
    · simp at h
  · rintro ⟨o, l, c, hfields, ho, hl, hc⟩
    rw [toPosition?, fields?_eq_some_iff.2 hfields]
    simp only [toWord?_eq_some_iff.2 ho, toWord?_eq_some_iff.2 hl, toWord?_eq_some_iff.2 hc]

theorem toSpan?_eq_some_iff {v : Json} {s : Span Position} :
    toSpan? v = some s ↔ IsSpan s v := by
  constructor
  · intro h
    unfold toSpan? at h
    split at h
    · next a b hfields =>
      split at h
      · next p q ha hb =>
        obtain rfl := Option.some.inj h
        exact ⟨a, b, fields?_eq_some_iff.1 hfields, toPosition?_eq_some_iff.1 ha,
          toPosition?_eq_some_iff.1 hb⟩
      · simp at h
    · simp at h
  · rintro ⟨a, b, hfields, ha, hb⟩
    rw [toSpan?, fields?_eq_some_iff.2 hfields]
    simp only [toPosition?_eq_some_iff.2 ha, toPosition?_eq_some_iff.2 hb]

variable {path : Path} {members : List (String × Json)} {s : Span Position}

theorem locate_eq_ok_iff : locate path members = .ok s ↔
    (∃ location, Json.Has members "location" location ∧ IsSpan s location) ∧ s.start ≤ s.stop := by
  constructor
  · intro h
    unfold locate at h
    split at h
    · simp at h
    · next location hmember =>
      split at h
      · simp at h
      · next s' hspan =>
        split at h
        · next horder =>
          obtain rfl := Except.ok.inj h
          have hlocation := Json.member?_eq_some_iff.1 hmember
          exact ⟨⟨location, hlocation, toSpan?_eq_some_iff.1 hspan⟩, horder⟩
        · simp at h
  · rintro ⟨⟨location, hmember, hspan⟩, horder⟩
    have hlocation := Json.member?_eq_some_iff.2 hmember
    simp only [locate, hlocation, toSpan?_eq_some_iff.2 hspan, if_pos horder]

theorem enclose_eq_ok_iff {ns : List (Node Position)} {n : Node Position} :
    enclose path s ns = .ok n ↔ n = .list s ns ∧ ∀ child ∈ ns, s.Encloses child.span := by
  constructor
  · intro h
    have hencloses := encloses_of_enclose h
    rw [enclose_of_encloses hencloses] at h
    exact ⟨(Except.ok.inj h).symm, hencloses⟩
  · rintro ⟨rfl, hencloses⟩
    exact enclose_of_encloses hencloses

section Items

variable {rule : Path → Json → Except Fault (Node Position)} {index : Nat} {vs : List Json}

theorem decodeItems_eq_ok_nil_iff : decodeItems rule path index vs = .ok [] ↔ vs = [] := by
  cases vs with
  | nil => simp [decodeItems]
  | cons w ws =>
    rw [decodeItems]
    cases rule (.item path index) w with
    | error f => simp
    | ok n => cases decodeItems rule path (index + 1) ws <;> simp

theorem decodeItems_eq_ok_cons_iff {n : Node Position} {ns : List (Node Position)} :
    decodeItems rule path index vs = .ok (n :: ns) ↔ ∃ w ws, vs = w :: ws ∧
      rule (.item path index) w = .ok n ∧ decodeItems rule path (index + 1) ws = .ok ns := by
  cases vs with
  | nil => simp [decodeItems]
  | cons w ws =>
    rw [decodeItems]
    cases hfirst : rule (.item path index) w with
    | error f => simp [hfirst]
    | ok n' =>
      cases hrest : decodeItems rule path (index + 1) ws with
      | error f => simp [hrest]
      | ok ns' => simp [hfirst, hrest]

end Items

/-! ## Nodes -/

section Nodes

variable {deeper : Option (Path → Json → Except Fault (Node Position))} {v : Json}
  {n : Node Position}

/-- An object with the parts of a node is decoded to the node. -/
theorem decodeNodeWith_of_hasParts :
    (∀ text, HasParts s "atom" (.string text) v →
      decodeNodeWith deeper path v = .ok (.atom s text)) ∧
    (∀ text, HasParts s "string" (.string text) v →
      decodeNodeWith deeper path v = .ok (.string s text)) ∧
    ∀ rule items ns, HasParts s "list" (.array items) v → deeper = some rule →
      decodeItems rule (.content path) 0 items = .ok ns → (∀ child ∈ ns, s.Encloses child.span) →
        decodeNodeWith deeper path v = .ok (.list s ns) := by
  cases v with
  | object members =>
    refine ⟨?_, ?_, ?_⟩
    · rintro text ⟨hlocation, horder, htype, hcontent⟩
      simp only [decodeNodeWith, locate_eq_ok_iff.2 ⟨hlocation, horder⟩,
        Json.member?_eq_some_iff.2 htype, Json.member?_eq_some_iff.2 hcontent]
      rfl
    · rintro text ⟨hlocation, horder, htype, hcontent⟩
      simp only [decodeNodeWith, locate_eq_ok_iff.2 ⟨hlocation, horder⟩,
        Json.member?_eq_some_iff.2 htype, Json.member?_eq_some_iff.2 hcontent]
      rfl
    · rintro rule items ns ⟨hlocation, horder, htype, hcontent⟩ rfl hitems hencloses
      simp only [decodeNodeWith, locate_eq_ok_iff.2 ⟨hlocation, horder⟩,
        Json.member?_eq_some_iff.2 htype, Json.member?_eq_some_iff.2 hcontent, decodeArray, hitems,
        enclose_of_encloses hencloses]
  | _ => simp [HasParts]

/-- A value that is decoded to a node is an object with the parts of the node. -/
theorem parts_of_decodeNodeWith (h : decodeNodeWith deeper path v = .ok n) :
    (∃ s text, n = .atom s text ∧ HasParts s "atom" (.string text) v) ∨
    (∃ s text, n = .string s text ∧ HasParts s "string" (.string text) v) ∨
    ∃ rule s ns items, n = .list s ns ∧ HasParts s "list" (.array items) v ∧ deeper = some rule ∧
      decodeItems rule (.content path) 0 items = .ok ns ∧ ∀ child ∈ ns, s.Encloses child.span := by
  cases v with
  | object members =>
    rw [decodeNodeWith] at h
    cases hlocate : locate path members with
    | error f => simp [hlocate] at h
    | ok s =>
      obtain ⟨hlocation, horder⟩ := locate_eq_ok_iff.1 hlocate
      have hparts : ∀ type content, Json.member? "type" members = some (.string type) →
          Json.member? "content" members = some content →
            HasParts s type content (.object members) := fun type content htype hcontent =>
        ⟨hlocation, horder, Json.member?_eq_some_iff.1 htype, Json.member?_eq_some_iff.1 hcontent⟩
      rw [hlocate] at h
      simp only at h
      -- the cases are those of the decoder: no content, the three types, others, no type
      split at h
      · simp at h
      · next content hcontent htype =>
        cases content with
        | string text =>
          exact Or.inl ⟨s, text, (Except.ok.inj h).symm, hparts _ _ htype hcontent⟩
        | _ => simp [toText, Except.map] at h
      · next content hcontent htype =>
        cases content with
        | string text =>
          exact Or.inr (Or.inl ⟨s, text, (Except.ok.inj h).symm, hparts _ _ htype hcontent⟩)
        | _ => simp [toText, Except.map] at h
      · next content hcontent htype =>
        right
        right
        cases deeper with
        | none => simp at h
        | some rule =>
          cases content with
          | array items =>
            simp only [decodeArray] at h
            cases hitems : decodeItems rule (.content path) 0 items with
            | error f => simp [hitems] at h
            | ok ns =>
              rw [hitems] at h
              obtain ⟨rfl, hencloses⟩ := enclose_eq_ok_iff.1 h
              exact ⟨rule, s, ns, items, rfl, hparts _ _ htype hcontent, rfl, hitems, hencloses⟩
          | _ => simp [decodeArray] at h
      · simp at h
      · simp at h
  | _ => simp [decodeNodeWith] at h

theorem decodeNodeWith_eq_ok_atom_iff {text : String} :
    decodeNodeWith deeper path v = .ok (.atom s text) ↔ HasParts s "atom" (.string text) v := by
  constructor
  · intro h
    rcases parts_of_decodeNodeWith h with ⟨s', text', hn, hparts⟩ | ⟨s', text', hn, _⟩ |
      ⟨_, s', ns, _, hn, _⟩
    · obtain ⟨rfl, rfl⟩ := Node.atom.inj hn
      exact hparts
    · simp at hn
    · simp at hn
  · exact decodeNodeWith_of_hasParts.1 text

theorem decodeNodeWith_eq_ok_string_iff {text : String} :
    decodeNodeWith deeper path v = .ok (.string s text) ↔ HasParts s "string" (.string text) v := by
  constructor
  · intro h
    rcases parts_of_decodeNodeWith h with ⟨s', text', hn, _⟩ | ⟨s', text', hn, hparts⟩ |
      ⟨_, s', ns, _, hn, _⟩
    · simp at hn
    · obtain ⟨rfl, rfl⟩ := Node.string.inj hn
      exact hparts
    · simp at hn
  · exact decodeNodeWith_of_hasParts.2.1 text

theorem decodeNodeWith_eq_ok_list_iff {ns : List (Node Position)} :
    decodeNodeWith deeper path v = .ok (.list s ns) ↔ ∃ rule items, deeper = some rule ∧
      HasParts s "list" (.array items) v ∧ decodeItems rule (.content path) 0 items = .ok ns ∧
      ∀ child ∈ ns, s.Encloses child.span := by
  constructor
  · intro h
    rcases parts_of_decodeNodeWith h with ⟨s', text', hn, _⟩ | ⟨s', text', hn, _⟩ |
      ⟨rule, s', ns', items, hn, hparts, hdeeper, hitems, hencloses⟩
    · simp at hn
    · simp at hn
    · obtain ⟨rfl, rfl⟩ := Node.list.inj hn
      exact ⟨rule, items, hdeeper, hparts, hitems, hencloses⟩
  · rintro ⟨rule, items, hdeeper, hparts, hitems, hencloses⟩
    exact decodeNodeWith_of_hasParts.2.2 rule items ns hparts hdeeper hitems hencloses

end Nodes

/-! ## Trees -/

mutual
/-- A document is decoded to the nodes that it represents, if they are shallow enough. -/
theorem decodeNode_eq_ok_iff : (n : Node Position) → (levels : Nat) → (path : Path) → (v : Json) →
    (decodeNode levels path v = .ok n ↔ Represents n v ∧ n.nesting ≤ levels)
  | .atom s text, levels, path, v => by
    rw [Represents, Node.nesting, and_iff_left (Nat.zero_le levels)]
    cases levels with
    | zero => exact decodeNodeWith_eq_ok_atom_iff
    | succ levels => exact decodeNodeWith_eq_ok_atom_iff
  | .string s text, levels, path, v => by
    rw [Represents, Node.nesting, and_iff_left (Nat.zero_le levels)]
    cases levels with
    | zero => exact decodeNodeWith_eq_ok_string_iff
    | succ levels => exact decodeNodeWith_eq_ok_string_iff
  | .list s ns, levels, path, v => by
    cases levels with
    | zero =>
      refine decodeNodeWith_eq_ok_list_iff.trans ⟨?_, ?_⟩
      · rintro ⟨rule, items, hdeeper, _⟩
        simp at hdeeper
      · rintro ⟨_, hnesting⟩
        exact absurd hnesting (Nat.not_succ_le_zero _)
    | succ levels =>
      refine decodeNodeWith_eq_ok_list_iff.trans ⟨?_, ?_⟩
      · rintro ⟨rule, items, hdeeper, hparts, hitems, hencloses⟩
        obtain rfl := Option.some.inj hdeeper
        obtain ⟨hall, hnesting⟩ := (decodeItems_eq_ok_iff ns levels _ 0 items).1 hitems
        exact ⟨⟨items, hparts, hall, hencloses⟩, Nat.succ_le_succ hnesting⟩
      · rintro ⟨⟨items, hparts, hall, hencloses⟩, hnesting⟩
        have hitems := (decodeItems_eq_ok_iff ns levels (.content path) 0 items).2
          ⟨hall, Nat.le_of_succ_le_succ hnesting⟩
        exact ⟨_, items, rfl, hparts, hitems, hencloses⟩

theorem decodeItems_eq_ok_iff : (ns : List (Node Position)) → (levels : Nat) → (path : Path) →
    (index : Nat) → (vs : List Json) →
    (decodeItems (decodeNode levels) path index vs = .ok ns ↔
      RepresentsAll ns vs ∧ Node.nestingAll ns ≤ levels)
  | [], levels, path, index, vs => by
    rw [RepresentsAll, Node.nestingAll, and_iff_left (Nat.zero_le levels)]
    exact decodeItems_eq_ok_nil_iff
  | n :: ns, levels, path, index, vs => by
    rw [decodeItems_eq_ok_cons_iff, RepresentsAll, Node.nestingAll, Nat.max_le]
    constructor
    · rintro ⟨w, ws, hvs, hfirst, hrest⟩
      obtain ⟨hn, hnesting⟩ := (decodeNode_eq_ok_iff n levels _ w).1 hfirst
      obtain ⟨hns, hnestingAll⟩ := (decodeItems_eq_ok_iff ns levels _ _ ws).1 hrest
      exact ⟨⟨w, ws, hvs, hn, hns⟩, hnesting, hnestingAll⟩
    · rintro ⟨⟨w, ws, hvs, hn, hns⟩, hnesting, hnestingAll⟩
      exact ⟨w, ws, hvs, (decodeNode_eq_ok_iff n levels _ w).2 ⟨hn, hnesting⟩,
        (decodeItems_eq_ok_iff ns levels _ _ ws).2 ⟨hns, hnestingAll⟩⟩
end

theorem fits_of_isPosition {p : Position} {v : Json} (h : IsPosition p v) : p.Fits := by
  obtain ⟨_, _, _, _, ho, hl, hc⟩ := h
  exact ⟨ho.2, hl.2, hc.2⟩

theorem sound_of_hasParts {s : Span Position} {type : String} {content v : Json}
    (h : HasParts s type content v) : s.start ≤ s.stop ∧ s.Fits := by
  cases v with
  | object members =>
    obtain ⟨⟨_, _, _, _, _, hstart, hstop⟩, horder, _⟩ := h
    exact ⟨horder, fits_of_isPosition hstart, fits_of_isPosition hstop⟩
  | _ => exact absurd h (by simp [HasParts])

mutual
theorem sound_of_represents : (n : Node Position) → (v : Json) → (depth : Nat) →
    Represents n v → Sound (n.preorder depth)
  | .atom s text, v, depth, h => by
    intro m hm
    rw [List.mem_singleton.1 hm]
    exact sound_of_hasParts h
  | .string s text, v, depth, h => by
    intro m hm
    rw [List.mem_singleton.1 hm]
    exact sound_of_hasParts h
  | .list s ns, v, depth, h => by
    obtain ⟨items, hparts, hall, hencloses⟩ := h
    obtain ⟨horder, hfits⟩ := sound_of_hasParts hparts
    intro m hm
    rcases List.mem_cons.1 hm with rfl | hm
    · exact ⟨⟨horder, hencloses⟩, hfits⟩
    · exact sound_of_representsAll ns items (depth + 1) hall m hm

theorem sound_of_representsAll : (ns : List (Node Position)) → (vs : List Json) →
    (depth : Nat) → RepresentsAll ns vs → Sound (Node.preorderAll depth ns)
  | [], _, _, _ => fun m hm => absurd hm (by simp [Node.preorderAll])
  | n :: ns, _, depth, h => by
    obtain ⟨w, ws, _, hn, hns⟩ := h
    intro m hm
    rcases List.mem_append.1 hm with hm | hm
    · exact sound_of_represents n w depth hn m hm
    · exact sound_of_representsAll ns ws depth hns m hm
end

/-! ## Documents -/

/-- A value is decoded to given trees exactly if it is an array of documents of these
trees and they nest no deeper than is allowed.  The spans of such trees are well formed,
and their own document is decoded to them again. -/
theorem decode_eq_ok_iff (v : Json) (ns : List (Node Position)) :
    (decode v = .ok ns ↔
      (∃ items, v = .array items ∧ RepresentsAll ns items) ∧ Node.nestingAll ns ≤ 256) ∧
    (decode v = .ok ns →
      (∀ m ∈ Node.preorderAll 0 ns, m.2.WellFormed) ∧ decode (ofNodes ns) = .ok ns) := by
  have hiff : decode v = .ok ns ↔
      (∃ items, v = .array items ∧ RepresentsAll ns items) ∧ Node.nestingAll ns ≤ 256 := by
    cases v with
    | array items =>
      refine (decodeItems_eq_ok_iff ns 256 .root 0 items).trans ?_
      simp
    | _ => simp [decode, decodeArray]
  refine ⟨hiff, fun h => ?_⟩
  obtain ⟨⟨items, _, hall⟩, hnesting⟩ := hiff.1 h
  have hsound := sound_of_representsAll ns items 0 hall
  refine ⟨fun m hm => (hsound m hm).1, ?_⟩
  rw [decode_ofNodes hsound]
  exact if_pos hnesting

/-- A list whose location is an array of an object and an array, with members of no
meaning and one that is written twice. -/
theorem decode_eq_ok_iff_mixed : ∃ v ns, decode v = .ok ns ∧
    (∃ items, v = .array items ∧ RepresentsAll ns items) ∧ v ≠ ofNodes ns ∧
    decode (ofNodes ns) = .ok ns := by
  let v : Json := .array [.object [("type", .string "atom"), ("id", .null),
    ("location", .array [
      .object [("offset", .number (.whole 2)), ("unit", .bool true), ("line", .number (.whole 0)),
        ("column", .number (.whole 7))],
      .array [.number (.whole 2), .number (.whole 1), .number (.whole 0)]]),
    ("content", .array []), ("type", .string "list")]]
  have hdecode : decode v = .ok [.list ⟨⟨2, 0, 7⟩, ⟨2, 1, 0⟩⟩ []] := by decide +kernel
  obtain ⟨hiff, hnormal⟩ := decode_eq_ok_iff v [.list ⟨⟨2, 0, 7⟩, ⟨2, 1, 0⟩⟩ []]
  refine ⟨v, _, hdecode, (hiff.1 hdecode).1, ?_, (hnormal hdecode).2⟩
  simp [v, ofNodes, ofNodeList, ofNode, ofParts]

end Document
end LispSyntax
