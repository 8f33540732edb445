/-
The fault of a document.

A document may be wrong in many places.  The checks of a document are listed here one
after the other, those of a node before those of its children and the enclosure of the
children at last, and each check says by itself what it asks of which part.  A document
is refused exactly if some check fails, and the fault is that of the first.  The path is
reported as text, and the text leads to the part that the check is about, past documents
that are accepted by themselves.
-/
import LispSyntax.Proofs.DocumentSchema
import LispSyntax.Proofs.PathText

namespace LispSyntax

theorem Json.sizeOf_lt_of_part? {name : String} {v w : Json} (h : v.part? name = some w) :
    sizeOf w < sizeOf v := by
  cases v with
  | object members =>
    obtain ⟨before, after, hmembers, _⟩ := member?_eq_some_iff.1 h
    have hmem : (name, w) ∈ members := by simp [hmembers]
    have hsize := List.sizeOf_lt_of_mem hmem
    rw [Prod.mk.sizeOf_spec] at hsize
    rw [Json.object.sizeOf_spec]
    omega
  | _ => simp [part?] at h

namespace Document

/-- The documents of the children of a list. -/
def childrenOf (v : Json) : List Json :=
  match v.part? "content" with
  | some (.array items) => items
  | _ => []

theorem sizeOf_childrenOf_le (v : Json) : sizeOf (childrenOf v) ≤ sizeOf v := by
  unfold childrenOf
  split
  · next items hcontent =>
    have hsize := Json.sizeOf_lt_of_part? hcontent
    rw [Json.array.sizeOf_spec] at hsize
    omega
  · cases v <;> simp

/-! ## Checks -/

/-- The location of the node document has the given span. -/
def LocatedAt (s : Span Position) (v : Json) : Prop :=
  ∃ location, v.part? "location" = some location ∧ IsSpan s location

/-- What is asked of a part of a document. -/
inductive Demand where
  /-- It is an array. -/
  | array
  /-- It is an object. -/
  | object
  /-- It has a location. -/
  | location
  /-- Its location has two ends. -/
  | ends
  /-- The ends of its location are in order. -/
  | order
  /-- It has content. -/
  | content
  /-- It has a type, which is a string. -/
  | type
  /-- Its type, which has the given name, is known. -/
  | known (name : String)
  /-- Its content is a string. -/
  | text
  /-- It is a list inside of so many lists, and they are not too many. -/
  | depth (ancestors : Nat)
  /-- Its location lies in that of the list. -/
  | enclosedIn (list : Json)

/-- The part of a document meets the demand. -/
def Demand.MetBy (v : Json) : Demand → Prop
  | .array => ∃ items, v = .array items
  | .object => ∃ members, v = .object members
  | .location => ∃ location, v.part? "location" = some location
  | .ends => ∃ s, LocatedAt s v
  | .order => ∃ s, LocatedAt s v ∧ s.start ≤ s.stop
  | .content => ∃ content, v.part? "content" = some content
  | .type => ∃ name, v.part? "type" = some (.string name)
  | .known name => name ∈ ["atom", "string", "list"]
  | .text => ∃ text, v.part? "content" = some (.string text)
  | .depth ancestors => ancestors < 256
  | .enclosedIn list => ∃ s t, LocatedAt s list ∧ LocatedAt t v ∧ s.Encloses t

/-- A demand on the part of a document at a path. -/
structure Check where
  demand : Demand
  path : Path
  value : Json

namespace Check

/-- The part that the check is about meets the demand. -/
def Holds (c : Check) : Prop := c.demand.MetBy c.value

/-- What is reported if the check fails. -/
def fault (c : Check) : Fault :=
  match c.demand with
  | .array => .shape .arrayOfNodes c.path
  | .object => .shape .nodeObject c.path
  | .location => .shape .location c.path
  | .ends => .shape .locationEnds c.path
  | .order => .shape .locationOrder c.path
  | .content => .shape .content c.path
  | .type => .shape .nodeType c.path
  | .known name => .unknownType name c.path
  | .text => .shape .textContent c.path
  | .depth _ => .tooDeep
  | .enclosedIn _ => .shape .enclosedChildren c.path

end Check

/-- The check is the first of these that fails. -/
def FirstFailing (checks : List Check) (c : Check) : Prop :=
  ∃ before after, checks = before ++ c :: after ∧ (∀ b ∈ before, b.Holds) ∧ ¬ c.Holds

/-! ## Traversal -/

/-- The checks that a list encloses its children, the first of which is the item of
the array at `path` with the given index. -/
def enclosureChecks (list : Json) (path : Path) (index : Nat) : List Json → List Check
  | [] => []
  | v :: vs => ⟨.enclosedIn list, .item path index, v⟩ :: enclosureChecks list path (index + 1) vs

/-- The checks of the location of a node document. -/
def locationChecks (path : Path) (v : Json) : List Check :=
  [⟨.location, path, v⟩, ⟨.ends, path, v⟩, ⟨.order, path, v⟩]

/-- The check that the content of a list is an array. -/
def contentChecks (path : Path) (v : Json) : List Check :=
  match v.part? "content" with
  | some content => [⟨.array, .content path, content⟩]
  | none => []

mutual
/-- The checks of a node document inside of so many lists. -/
def nodeChecks (ancestors : Nat) (path : Path) (v : Json) : List Check :=
  ⟨.object, path, v⟩ :: (locationChecks path v ++ (⟨.content, path, v⟩ :: ⟨.type, path, v⟩ ::
    match v.part? "type" with
    | some (.string name) => ⟨.known name, path, v⟩ ::
      match name with
      | "atom" => [⟨.text, path, v⟩]
      | "string" => [⟨.text, path, v⟩]
      | "list" => listChecks ancestors path v
      | _ => []
    | _ => []))
termination_by (sizeOf v, 2)

/-- The checks of the document of a list that do not concern all nodes. -/
def listChecks (ancestors : Nat) (path : Path) (v : Json) : List Check :=
  ⟨.depth ancestors, path, v⟩ :: (contentChecks path v ++
    (itemChecks (ancestors + 1) (.content path) 0 (childrenOf v) ++
      enclosureChecks v (.content path) 0 (childrenOf v)))
termination_by (sizeOf v, 1)
decreasing_by
  have hsize := sizeOf_childrenOf_le v
  omega

/-- The checks of node documents, the first of which is the item of the array at
`path` with the given index. -/
def itemChecks (ancestors : Nat) (path : Path) (index : Nat) : List Json → List Check
  | [] => []
  | v :: vs => nodeChecks ancestors (.item path index) v ++ itemChecks ancestors path (index + 1) vs
termination_by vs => (sizeOf vs, 0)
end

/-- The checks of a whole document. -/
def documentChecks (v : Json) : List Check :=
  ⟨.array, .root, v⟩ ::
    match v with
    | .array items => itemChecks 0 .root 0 items
    | _ => []

/-! ## Reports -/

/-- The node document is accepted by itself. -/
def Accepted (v : Json) : Prop := ∃ n, decode (.array [v]) = .ok [n]

/-- Wherever the path leads through an item of an array, the items before it are
accepted by themselves. -/
def Path.Clear (root : Json) (path : Path) : Prop :=
  ∀ array index, path.Through array index → ∀ i < index,
    ∃ v, (Path.item array i).resolve? root = some v ∧ Accepted v

/-- A decoder fails as the checks do: with the fault of the first that fails, whose path
leads to the part that it is about. -/
def Reports {α : Type} (root : Json) (checks : List Check) : Except Fault α → Prop
  | .ok _ => ∀ c ∈ checks, c.Holds
  | .error f => ∃ c, FirstFailing checks c ∧ c.fault = f ∧
      c.path.resolve? root = some c.value ∧ c.path.Clear root

theorem firstFailing_cons_iff {b c : Check} {checks : List Check} :
    FirstFailing (b :: checks) c ↔ (¬ b.Holds ∧ c = b) ∨ (b.Holds ∧ FirstFailing checks c) := by
  constructor
  · rintro ⟨before, after, hsplit, hbefore, hc⟩
    cases before with
    | nil =>
      obtain ⟨rfl, -⟩ := List.cons.inj hsplit
      exact Or.inl ⟨hc, rfl⟩
    | cons b' before =>
      obtain ⟨rfl, htail⟩ := List.cons.inj hsplit
      obtain ⟨hb, hbefore⟩ := List.forall_mem_cons.1 hbefore
      exact Or.inr ⟨hb, before, after, htail, hbefore, hc⟩
  · rintro (⟨hc, rfl⟩ | ⟨hb, before, after, rfl, hbefore, hc⟩)
    · exact ⟨[], checks, rfl, by simp, hc⟩
    · exact ⟨b :: before, after, rfl, List.forall_mem_cons.2 ⟨hb, hbefore⟩, hc⟩

theorem FirstFailing.append_right {c : Check} {checks : List Check}
    (h : FirstFailing checks c) (more : List Check) : FirstFailing (checks ++ more) c := by
  obtain ⟨before, after, rfl, hbefore, hc⟩ := h
  exact ⟨before, after ++ more, by simp, hbefore, hc⟩

/-- At most one check is the first that fails. -/
theorem FirstFailing.unique {c d : Check} {checks : List Check} (hc : FirstFailing checks c)
    (hd : FirstFailing checks d) : c = d := by
  induction checks with
  | nil =>
    obtain ⟨before, after, hnil, _⟩ := hc
    simp at hnil
  | cons b checks ih =>
    rcases firstFailing_cons_iff.1 hc with ⟨hb, rfl⟩ | ⟨hb, hc⟩
    · rcases firstFailing_cons_iff.1 hd with ⟨_, rfl⟩ | ⟨hholds, _⟩
      · rfl
      · exact absurd hholds hb
    · rcases firstFailing_cons_iff.1 hd with ⟨hfails, _⟩ | ⟨_, hd⟩
      · exact absurd hb hfails
      · exact ih hc hd

section Reports

variable {α : Type} {root : Json} {checks : List Check} {c : Check} {r : Except Fault α}

theorem Reports.cons (hc : c.Holds) (h : Reports root checks r) :
    Reports root (c :: checks) r := by
  cases r with
  | ok a => exact List.forall_mem_cons.2 ⟨hc, h⟩
  | error f =>
    obtain ⟨d, hfirst, hd⟩ := h
    exact ⟨d, firstFailing_cons_iff.2 (Or.inr ⟨hc, hfirst⟩), hd⟩

/-- A check that fails is reported, whatever is checked later. -/
theorem Reports.head {f : Fault} (hc : ¬ c.Holds) (hfault : c.fault = f)
    (hpath : c.path.resolve? root = some c.value) (hclear : c.path.Clear root) :
    Reports root (c :: checks) (.error f : Except Fault α) :=
  ⟨c, firstFailing_cons_iff.2 (Or.inl ⟨hc, rfl⟩), hfault, hpath, hclear⟩

theorem Reports.append (hall : ∀ c ∈ checks, c.Holds) {more : List Check}
    (h : Reports root more r) : Reports root (checks ++ more) r := by
  induction checks with
  | nil => exact h
  | cons b checks ih =>
    obtain ⟨hb, hchecks⟩ := List.forall_mem_cons.1 hall
    exact (ih hchecks).cons hb

theorem Reports.append_error {β : Type} {f : Fault} {more : List Check}
    (h : Reports root checks (.error f : Except Fault α)) :
    Reports root (checks ++ more) (.error f : Except Fault β) := by
  obtain ⟨c, hfirst, hc⟩ := h
  exact ⟨c, hfirst.append_right more, hc⟩

end Reports

/-! ## Nodes -/

section Nodes

variable {root : Json} {path : Path} {members : List (String × Json)}

theorem locatedAt_iff {v location : Json} {s : Span Position}
    (h : v.part? "location" = some location) : LocatedAt s v ↔ toSpan? location = some s := by
  rw [toSpan?_eq_some_iff, LocatedAt, h]
  simp

/-- The location of a node document is found as the checks of it hold. -/
theorem locate_reports (hpath : path.resolve? root = some (.object members))
    (hclear : path.Clear root) :
    Reports root (locationChecks path (.object members)) (locate path members) := by
  cases hlocation : Json.member? "location" members with
  | none =>
    simp only [locate, hlocation]
    refine Reports.head ?_ rfl hpath hclear
    rintro ⟨location, hsome⟩
    exact absurd (hlocation.symm.trans hsome) (by simp)
  | some location =>
    simp only [locate, hlocation]
    refine Reports.cons ⟨location, hlocation⟩ ?_
    have hiff : ∀ s, LocatedAt s (.object members) ↔ toSpan? location = some s :=
      fun s => locatedAt_iff hlocation
    cases hspan : toSpan? location with
    | none =>
      refine Reports.head ?_ rfl hpath hclear
      rintro ⟨s, hs⟩
      exact absurd (hspan.symm.trans ((hiff s).1 hs)) (by simp)
    | some s =>
      refine Reports.cons ⟨s, (hiff s).2 hspan⟩ ?_
      by_cases horder : s.start ≤ s.stop
      · simp only [if_pos horder]
        exact Reports.cons ⟨s, (hiff s).2 hspan, horder⟩ (fun c hc => absurd hc (by simp))
      · simp only [if_neg horder]
        refine Reports.head ?_ rfl hpath hclear
        rintro ⟨s', hs', horder'⟩
        obtain rfl := Option.some.inj (hspan.symm.trans ((hiff s').1 hs'))
        exact horder horder'

theorem toText_reports {v content : Json} (hpath : path.resolve? root = some v)
    (hclear : path.Clear root) (hcontent : v.part? "content" = some content)
    (build : String → Node Position) :
    Reports root [⟨.text, path, v⟩] ((toText path content).map build) := by
  cases content with
  | string text => exact Reports.cons ⟨text, hcontent⟩ (fun c hc => absurd hc (by simp))
  | _ =>
    refine Reports.head ?_ rfl hpath hclear
    rintro ⟨text, htext⟩
    exact absurd (hcontent.symm.trans htext) (by simp)

/-- The children are decoded by the given rule, and then their enclosure is checked. -/
def decodeList (deeper : Option (Path → Json → Except Fault (Node Position))) (path : Path)
    (s : Span Position) (content : Json) : Except Fault (Node Position) :=
  match deeper with
  | none => .error .tooDeep
  | some rule =>
    match decodeArray rule (.content path) content with
    | .error f => .error f
    | .ok children => enclose (.content path) s children

/-- A node document is decoded as its checks hold, if lists are. -/
theorem decodeNodeWith_reports {deeper : Option (Path → Json → Except Fault (Node Position))}
    {ancestors : Nat} {v : Json} (hpath : path.resolve? root = some v) (hclear : path.Clear root)
    (hlist : ∀ s content, LocatedAt s v → v.part? "content" = some content →
      Reports root (listChecks ancestors path v) (decodeList deeper path s content)) :
    Reports root (nodeChecks ancestors path v) (decodeNodeWith deeper path v) := by
  rw [nodeChecks]
  cases v with
  | object members =>
    refine Reports.cons ⟨members, rfl⟩ ?_
    have hreports := locate_reports hpath hclear
    cases hlocate : locate path members with
    | error f =>
      simp only [decodeNodeWith, hlocate]
      rw [hlocate] at hreports
      exact hreports.append_error
    | ok s =>
      have hlocated : LocatedAt s (.object members) := by
        obtain ⟨⟨location, hhas, hspan⟩, _⟩ := locate_eq_ok_iff.1 hlocate
        exact ⟨location, Json.member?_eq_some_iff.2 hhas, hspan⟩
      simp only [decodeNodeWith, hlocate]
      rw [hlocate] at hreports
      refine Reports.append hreports ?_
      cases hcontent : Json.member? "content" members with
      | none =>
        refine Reports.head ?_ rfl hpath hclear
        rintro ⟨content, hsome⟩
        exact absurd (hcontent.symm.trans hsome) (by simp)
      | some content =>
        refine Reports.cons ⟨content, hcontent⟩ ?_
        simp only [Json.part?]
        rcases htype : Json.member? "type" members with _ | (_ | _ | _ | name | _ | _)
        case some.string =>
          refine Reports.cons ⟨name, htype⟩ ?_
          simp only
          split
          · refine Reports.cons (by simp [Check.Holds, Demand.MetBy]) ?_
            exact toText_reports hpath hclear hcontent _
          · refine Reports.cons (by simp [Check.Holds, Demand.MetBy]) ?_
            exact toText_reports hpath hclear hcontent _
          · refine Reports.cons (by simp [Check.Holds, Demand.MetBy]) ?_
            exact hlist s content hlocated hcontent
          · next hatom hstring hother =>
            simp only
            refine Reports.head ?_ rfl hpath hclear
            simpa [Check.Holds, Demand.MetBy] using ⟨hatom, hstring, hother⟩
        all_goals
          refine Reports.head ?_ rfl hpath hclear
          rintro ⟨name, hsome⟩
          exact absurd (htype.symm.trans hsome) (by simp)
  | _ =>
    refine Reports.head ?_ rfl hpath hclear
    simp [Check.Holds, Demand.MetBy]

theorem resolve?_item {array : Path} {items : List Json}
    (harray : array.resolve? root = some (.array items)) (index : Nat) :
    (Path.item array index).resolve? root = items[index]? := by
  rw [Path.resolve?, harray]
  rfl

theorem clear_item {array : Path} {items : List Json} {index : Nat} (hclear : array.Clear root)
    (harray : array.resolve? root = some (.array items))
    (haccepted : ∀ i < index, ∃ v, items[i]? = some v ∧ Accepted v) :
    (Path.item array index).Clear root := by
  rintro array' index' (⟨rfl, rfl⟩ | hthrough) i hi
  · rw [resolve?_item harray]
    exact haccepted i hi
  · exact hclear array' index' hthrough i hi

/-- Documents of items are decoded as their checks hold, if each document is. -/
theorem decodeItems_reports {rule : Path → Json → Except Fault (Node Position)} {ancestors : Nat}
    (hrule : ∀ path v, path.resolve? root = some v → path.Clear root →
      Reports root (nodeChecks ancestors path v) (rule path v))
    (haccepted : ∀ path v n, rule path v = .ok n → Accepted v) {array : Path} {items : List Json}
    (harray : array.resolve? root = some (.array items)) (hclear : array.Clear root) :
    ∀ vs done : List Json, items = done ++ vs → (∀ v ∈ done, Accepted v) →
      Reports root (itemChecks ancestors array done.length vs)
        (decodeItems rule array done.length vs) := by
  intro vs
  induction vs with
  | nil =>
    intro done _ _
    rw [itemChecks, decodeItems]
    exact fun c hc => absurd hc (by simp)
  | cons v vs ih =>
    intro done hitems hdone
    rw [itemChecks, decodeItems]
    have hpath : (Path.item array done.length).resolve? root = some v := by
      rw [resolve?_item harray, hitems]
      simp
    have hbefore : ∀ i < done.length, ∃ w, items[i]? = some w ∧ Accepted w := by
      intro i hi
      refine ⟨done[i], ?_, hdone _ (List.getElem_mem hi)⟩
      rw [hitems, List.getElem?_append_left hi, List.getElem?_eq_getElem hi]
    have hfirst := hrule _ v hpath (clear_item hclear harray hbefore)
    cases hv : rule (.item array done.length) v with
    | error f =>
      rw [hv] at hfirst
      exact hfirst.append_error
    | ok n =>
      rw [hv] at hfirst
      refine Reports.append hfirst ?_
      have hrest := ih (done ++ [v]) (by simp [hitems])
        (List.forall_mem_append.2 ⟨hdone, by simpa using haccepted _ v n hv⟩)
      rw [List.length_append, List.length_singleton] at hrest
      cases hvs : decodeItems rule array (done.length + 1) vs with
      | error f =>
        rw [hvs] at hrest
        exact hrest
      | ok ns =>
        rw [hvs] at hrest
        exact hrest

theorem LocatedAt.unique {s t : Span Position} {v : Json} (hs : LocatedAt s v)
    (ht : LocatedAt t v) : s = t := by
  obtain ⟨location, hlocation, hspan⟩ := hs
  rw [locatedAt_iff hlocation] at ht
  exact Option.some.inj ((toSpan?_eq_some_iff.2 hspan).symm.trans ht)

/-- The first child that is not enclosed is that of the first check of enclosure that
fails. -/
theorem enclosureChecks_findIdx? {list : Json} {s : Span Position}
    (hlist : LocatedAt s list) {ns : List (Node Position)} {vs : List Json}
    (hlocated : List.Forall₂ (fun n v => LocatedAt n.span v) ns vs) (array : Path) (index : Nat) :
    match ns.findIdx? fun n => !decide (s.Encloses n.span) with
    | none => ∀ c ∈ enclosureChecks list array index vs, c.Holds
    | some i => ∃ v, vs[i]? = some v ∧ FirstFailing (enclosureChecks list array index vs)
        ⟨.enclosedIn list, .item array (index + i), v⟩ := by
  induction hlocated generalizing index with
  | nil => simp [enclosureChecks]
  | @cons n v ns vs hn hrest ih =>
    rw [List.findIdx?_cons, enclosureChecks]
    have hiff : (Check.mk (.enclosedIn list) (.item array index) v).Holds ↔
        s.Encloses n.span := by
      constructor
      · rintro ⟨s', t, hs', ht, hencloses⟩
        rwa [hlist.unique hs', hn.unique ht]
      · exact fun hencloses => ⟨s, n.span, hlist, hn, hencloses⟩
    by_cases hencloses : s.Encloses n.span
    · simp only [hencloses, decide_true, Bool.not_true, Bool.false_eq_true, if_false]
      have hmore := ih (index + 1)
      cases hfind : ns.findIdx? fun n => !decide (s.Encloses n.span) with
      | none =>
        rw [hfind] at hmore
        exact List.forall_mem_cons.2 ⟨hiff.2 hencloses, hmore⟩
      | some i =>
        rw [hfind] at hmore
        obtain ⟨w, hw, hfirst⟩ := hmore
        rw [Nat.add_right_comm] at hfirst
        exact ⟨w, hw, firstFailing_cons_iff.2 (Or.inr ⟨hiff.2 hencloses, hfirst⟩)⟩
    · simp only [hencloses, decide_false, Bool.not_false, if_true]
      exact ⟨v, rfl, firstFailing_cons_iff.2 (Or.inl ⟨fun h => hencloses (hiff.1 h), rfl⟩)⟩

theorem forall_of_decodeItems {rule : Path → Json → Except Fault (Node Position)}
    (hrule : ∀ path v n, rule path v = .ok n → Accepted v ∧ LocatedAt n.span v) {array : Path} :
    ∀ (vs : List Json) (index : Nat) (ns : List (Node Position)),
      decodeItems rule array index vs = .ok ns →
        (∀ v ∈ vs, Accepted v) ∧ List.Forall₂ (fun n v => LocatedAt n.span v) ns vs := by
  intro vs index ns
  induction ns generalizing vs index with
  | nil =>
    intro h
    rw [decodeItems_eq_ok_nil_iff.1 h]
    simp
  | cons n ns ih =>
    intro h
    obtain ⟨w, ws, rfl, hfirst, hrest⟩ := decodeItems_eq_ok_cons_iff.1 h
    obtain ⟨haccepted, hlocated⟩ := hrule _ w n hfirst
    obtain ⟨hall, hforall⟩ := ih ws (index + 1) hrest
    exact ⟨List.forall_mem_cons.2 ⟨haccepted, hall⟩, List.Forall₂.cons hlocated hforall⟩

/-- The document of a list is decoded as the checks of it hold, if those of its
children are. -/
theorem decodeList_reports {rule : Path → Json → Except Fault (Node Position)}
    {ancestors : Nat} {v content : Json} {s : Span Position} (hdepth : ancestors < 256)
    (hrule : ∀ path v, path.resolve? root = some v → path.Clear root →
      Reports root (nodeChecks (ancestors + 1) path v) (rule path v))
    (hok : ∀ path v n, rule path v = .ok n → Accepted v ∧ LocatedAt n.span v)
    (hpath : path.resolve? root = some v) (hclear : path.Clear root) (hlocated : LocatedAt s v)
    (hcontent : v.part? "content" = some content) :
    Reports root (listChecks ancestors path v) (decodeList (some rule) path s content) := by
  have hpath' : (Path.content path).resolve? root = some content := by
    rw [Path.resolve?, hpath]
    exact hcontent
  have hclear' : (Path.content path).Clear root := hclear
  rw [listChecks, contentChecks, hcontent]
  refine Reports.cons hdepth ?_
  cases content with
  | array items =>
    refine Reports.cons ⟨items, rfl⟩ ?_
    have hchildren : childrenOf v = items := by rw [childrenOf, hcontent]
    rw [hchildren]
    have hreports := decodeItems_reports hrule (fun p w n h => (hok p w n h).1) hpath' hclear'
      items [] rfl (by simp)
    simp only [decodeList, decodeArray]
    cases hitems : decodeItems rule (.content path) 0 items with
    | error f =>
      rw [List.length_nil, hitems] at hreports
      exact hreports.append_error
    | ok ns =>
      rw [List.length_nil, hitems] at hreports
      refine Reports.append hreports ?_
      obtain ⟨hall, hforall⟩ := forall_of_decodeItems hok items 0 ns hitems
      have hfind := enclosureChecks_findIdx? hlocated hforall (.content path) 0
      simp only [enclose]
      cases hindex : ns.findIdx? fun n => !decide (s.Encloses n.span) with
      | none =>
        rw [hindex] at hfind
        exact hfind
      | some i =>
        rw [hindex] at hfind
        obtain ⟨w, hw, hfirst⟩ := hfind
        rw [Nat.zero_add] at hfirst
        refine ⟨_, hfirst, rfl, (resolve?_item hpath' i).trans hw, ?_⟩
        refine clear_item hclear' hpath' fun j hj => ?_
        have hlt : j < items.length := Nat.lt_trans hj (List.getElem?_eq_some_iff.1 hw).1
        exact ⟨items[j], List.getElem?_eq_getElem hlt, hall _ (List.getElem_mem hlt)⟩
  | _ =>
    refine Reports.head ?_ rfl hpath' hclear'
    simp [Check.Holds, Demand.MetBy]

end Nodes

theorem locatedAt_of_represents {n : Node Position} {v : Json} (h : Represents n v) :
    LocatedAt n.span v := by
  have hparts : ∃ type content, HasParts n.span type content v := by
    cases n with
    | atom s text => exact ⟨_, _, h⟩
    | string s text => exact ⟨_, _, h⟩
    | list s ns =>
      obtain ⟨items, hparts, _⟩ := h
      exact ⟨_, _, hparts⟩
  obtain ⟨type, content, hparts⟩ := hparts
  cases v with
  | object members =>
    obtain ⟨⟨location, hhas, hspan⟩, _⟩ := hparts
    exact ⟨location, Json.member?_eq_some_iff.2 hhas, hspan⟩
  | _ => exact absurd hparts (by simp [HasParts])

/-- A document that is decoded in any place, where fewer lists are allowed, is accepted by
itself. -/
theorem accepted_of_decodeNode {levels : Nat} (hlevels : levels ≤ 256) {path : Path} {v : Json}
    {n : Node Position} (h : decodeNode levels path v = .ok n) :
    Accepted v ∧ LocatedAt n.span v := by
  obtain ⟨hrepresents, hnesting⟩ := (decodeNode_eq_ok_iff n levels path v).1 h
  refine ⟨⟨n, ?_⟩, locatedAt_of_represents hrepresents⟩
  refine (decodeItems_eq_ok_iff [n] 256 .root 0 [v]).2 ⟨⟨v, [], rfl, hrepresents, rfl⟩, ?_⟩
  simpa [Node.nestingAll] using Nat.le_trans hnesting hlevels

theorem decodeNode_reports {root : Json} : ∀ (levels ancestors : Nat), ancestors + levels = 256 →
    ∀ (path : Path) (v : Json), path.resolve? root = some v → path.Clear root →
      Reports root (nodeChecks ancestors path v) (decodeNode levels path v) := by
  intro levels
  induction levels with
  | zero =>
    intro ancestors hsum path v hpath hclear
    refine decodeNodeWith_reports hpath hclear fun s content _ _ => ?_
    rw [listChecks]
    refine Reports.head ?_ rfl hpath hclear
    simp [Check.Holds, Demand.MetBy]
    omega
  | succ levels ih =>
    intro ancestors hsum path v hpath hclear
    refine decodeNodeWith_reports hpath hclear fun s content hlocated hcontent => ?_
    exact decodeList_reports (by omega) (ih (ancestors + 1) (by omega))
      (fun p w n => accepted_of_decodeNode (by omega)) hpath hclear hlocated hcontent

/-! ## Documents -/

theorem decode_reports (v : Json) : Reports v (documentChecks v) (decode v) := by
  have hclear : Path.Clear v .root := fun _ _ h => absurd h (by simp [Path.Through])
  cases v with
  | array items =>
    refine Reports.cons ⟨items, rfl⟩ ?_
    exact decodeItems_reports (decodeNode_reports 256 0 rfl)
      (fun p w n h => (accepted_of_decodeNode (Nat.le_refl 256) h).1) rfl hclear items [] rfl
      (by simp)
  | _ =>
    refine Reports.head ?_ rfl rfl hclear
    simp [Check.Holds, Demand.MetBy]

/-- The text that a failing check reports is that of its path. -/
theorem text_of_fault {c : Check} {text : String} (h : c.fault.pathText? = some text) :
    text = c.path.text := by
  obtain ⟨demand, p, v⟩ := c
  cases demand with
  | depth ancestors => simp [Check.fault, Fault.pathText?] at h
  | _ => exact (Option.some.inj h).symm

/-- In front of an index in the text of a clear path, the documents beside the way are
accepted by themselves. -/
theorem Path.Clear.accepted {v : Json} {path : Path} (hclear : path.Clear v) {before rest : String}
    {index : Nat} (htext : path.text = before ++ s!"[{index}]" ++ rest) {i : Nat} (hi : i < index) :
    ∃ w, resolveText? v (before ++ s!"[{i}]") = some w ∧ Accepted w := by
  have hlist := congrArg String.toList htext
  rw [String.toList_append, String.toList_append, toList_index, toList_text] at hlist
  obtain ⟨cs, hbefore⟩ : ∃ cs, before.toList = '$' :: cs := by
    cases hcs : before.toList with
    | nil => simp [hcs] at hlist
    | cons c cs =>
      rw [hcs] at hlist
      exact ⟨cs, by rw [(List.cons.inj hlist).1]⟩
  have hsteps : path.steps = cs ++ '[' :: (Nat.toDigits 10 index ++ ']' :: rest.toList) := by
    rw [hbefore] at hlist
    simpa using hlist
  obtain ⟨array, hthrough, harray⟩ := exists_through hsteps
  obtain ⟨w, hw, haccepted⟩ := hclear array index hthrough i hi
  have hitem : (Path.item array i).text = before ++ s!"[{i}]" := by
    refine String.toList_inj.1 ?_
    rw [toList_text, String.toList_append, toList_index, hbefore, steps, harray]
    rfl
  refine ⟨w, ?_, haccepted⟩
  rw [← hitem, resolveText?_text]
  exact hw

theorem fault_eq_tooDeep_iff {c : Check} :
    c.fault = .tooDeep ↔ ∃ ancestors, c.demand = .depth ancestors := by
  obtain ⟨demand, p, v⟩ := c
  cases demand <;> simp [Check.fault]

/-- A document is refused exactly if some check of it fails, and the fault is that of the
first.  The text of the path, with which the message ends, leads to the part that the
check is about, and the documents in front of each index in it are accepted by
themselves.  The depth is at fault exactly if it is the first thing that is. -/
theorem decode_eq_error_iff (v : Json) (f : Fault) :
    decode v = .error f ↔ ∃ c, FirstFailing (documentChecks v) c ∧ c.fault = f ∧
      (∀ text, f.pathText? = some text → resolveText? v text = some c.value ∧
        (∃ what, f.message = what ++ " at " ++ text) ∧
        ∀ (before rest : String) (index : Nat), text = before ++ s!"[{index}]" ++ rest →
          ∀ i < index, ∃ w n, resolveText? v (before ++ s!"[{i}]") = some w ∧
            decode (.array [w]) = .ok [n]) ∧
      (f = .tooDeep ↔ ∃ ancestors, c.demand = .depth ancestors) := by
  have hreports := decode_reports v
  constructor
  · intro h
    rw [h] at hreports
    obtain ⟨c, hfirst, rfl, hpath, hclear⟩ := hreports
    refine ⟨c, hfirst, rfl, fun text hfault => ?_, fault_eq_tooDeep_iff⟩
    have hmessage := Fault.exists_message_eq hfault
    obtain rfl := text_of_fault hfault
    refine ⟨(Path.resolveText?_text v c.path).trans hpath, hmessage, ?_⟩
    intro before rest index htext i hi
    obtain ⟨w, hw, n, hn⟩ := hclear.accepted htext hi
    exact ⟨w, n, hw, hn⟩
  · rintro ⟨c, hfirst, hfault, _⟩
    cases hdecode : decode v with
    | ok ns =>
      rw [hdecode] at hreports
      obtain ⟨before, after, hchecks, _, hc⟩ := hfirst
      exact absurd (hreports c (by simp [hchecks])) hc
    | error g =>
      rw [hdecode] at hreports
      obtain ⟨d, hd, hfault', _⟩ := hreports
      rw [← hfault, ← hfault', hfirst.unique hd]

/-- The second child of a list is of no known type, and the list encloses none of its
children.  The type is at fault, and both documents in front of it are accepted. -/
theorem decode_eq_error_iff_child : ∃ (v : Json) (c : Check) (f : Fault),
    decode v = .error f ∧ FirstFailing (documentChecks v) c ∧ c.demand = .known "widget" ∧
    f.pathText? = some "$[1].content[1]" ∧
    f.message = "unknown node type 'widget' at $[1].content[1]" ∧
    resolveText? v "$[1].content[1]" = some c.value ∧
    (∃ w n, resolveText? v "$[0]" = some w ∧ decode (.array [w]) = .ok [n]) ∧
    ∃ w n, resolveText? v "$[1].content[0]" = some w ∧ decode (.array [w]) = .ok [n] := by
  let v : Json := .array [ofNode (.atom ⟨⟨0, 0, 0⟩, ⟨1, 0, 1⟩⟩ "a"),
    ofParts (.array [ofNode (.string ⟨⟨5, 0, 5⟩, ⟨8, 0, 8⟩⟩ "b"),
      ofParts .null ⟨⟨3, 0, 3⟩, ⟨4, 0, 4⟩⟩ "widget"]) ⟨⟨2, 0, 2⟩, ⟨2, 0, 2⟩⟩ "list"]
  have hdecode : decode v = .error (.unknownType "widget" (.item (.content (.item .root 1)) 1)) :=
    rfl
  obtain ⟨c, hfirst, hfault, hpath, _⟩ := (decode_eq_error_iff v _).1 hdecode
  obtain ⟨hresolve, _, hbefore⟩ := hpath _ rfl
  have hdemand : c.demand = .known "widget" := by
    obtain ⟨demand, path, value⟩ := c
    cases demand <;> simp_all [Check.fault]
  exact ⟨v, c, _, hdecode, hfirst, hdemand, rfl, rfl, hresolve,
    hbefore "$" ".content[1]" 1 rfl 0 Nat.zero_lt_one,
    hbefore "$[1].content" "" 1 rfl 0 Nat.zero_lt_one⟩

end Document
end LispSyntax
