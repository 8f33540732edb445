/-
What is read as a JSON value.

A text is read as a value exactly if it is derived with that value: `parse?_eq_some_iff`.
The loops that read arrays and objects are one loop here, over the elements of either,
so that each part of the reader has one lemma for each direction, and the recursion is
on the levels that are read.
-/
import LispSyntax.Proofs.JsonTokens

namespace LispSyntax
namespace Json

/-! ## Arrays and objects

The loops that read arrays and objects differ in the element that is read and in the
closing character. -/

/-- Reads one element of a container. -/
def elementRule (rule : Rule Json) : (kind : Container) → Rule kind.Element
  | .array => rule
  | .object => memberRule rule

/-- Reads elements up to the closing character, of which `done`, in reverse, have been
read. -/
def elementsRest (rule : Rule Json) (kind : Container) (bound : List Char)
    (done : List kind.Element) (cs : List Char) : Option (List kind.Element × List Char) :=
  match elementRule rule kind cs with
  | none => none
  | some (x, cs) =>
    match skipSpace cs with
    | [] => none
    | c :: cs =>
      if c = kind.closing then some ((x :: done).reverse, cs)
      else if c = ',' then
        match bound with
        | [] => none
        | _ :: bound => elementsRest rule kind bound (x :: done) cs
      else none

/-- Reads a container behind its opening character. -/
def containerRule (rule : Rule Json) (kind : Container) : Rule (List kind.Element) := fun cs =>
  match skipSpace cs with
  | [] => elementsRest rule kind [] [] []
  | c :: cs =>
    if c = kind.closing then some ([], cs) else elementsRest rule kind (c :: cs) [] (c :: cs)

theorem itemsRest_eq (rule : Rule Json) (bound : List Char) (done : List Json) (cs : List Char) :
    itemsRest rule bound done cs = elementsRest rule .array bound done cs := by
  unfold itemsRest elementsRest
  simp only [elementRule]
  rcases rule cs with _ | ⟨v, ds⟩
  · rfl
  simp only
  rcases skipSpace ds with _ | ⟨c, es⟩
  · rfl
  by_cases hclose : c = ']'
  · subst hclose
    rfl
  by_cases hcomma : c = ','
  · subst hcomma
    cases bound with
    | nil => rfl
    | cons b bound => exact itemsRest_eq rule bound (v :: done) es
  · simp [hclose, hcomma, Container.closing]

theorem membersRest_eq (rule : Rule Json) (bound : List Char) (done : List (String × Json))
    (cs : List Char) :
    membersRest rule bound done cs = elementsRest rule .object bound done cs := by
  unfold membersRest elementsRest
  simp only [elementRule]
  rcases memberRule rule cs with _ | ⟨m, ds⟩
  · rfl
  simp only
  rcases skipSpace ds with _ | ⟨c, es⟩
  · rfl
  by_cases hclose : c = '\x7d'
  · subst hclose
    rfl
  by_cases hcomma : c = ','
  · subst hcomma
    cases bound with
    | nil => rfl
    | cons b bound => exact membersRest_eq rule bound (m :: done) es
  · simp [hclose, hcomma, Container.closing]

theorem arrayRule_eq (rule : Rule Json) (cs : List Char) :
    arrayRule rule cs = containerRule rule .array cs := by
  unfold arrayRule containerRule
  rcases skipSpace cs with _ | ⟨c, ds⟩
  · exact itemsRest_eq rule [] [] []
  by_cases hclose : c = ']'
  · subst hclose
    rfl
  · simp [hclose, Container.closing, itemsRest_eq]

theorem objectRule_eq (rule : Rule Json) (cs : List Char) :
    objectRule rule cs = containerRule rule .object cs := by
  unfold objectRule containerRule
  rcases skipSpace cs with _ | ⟨c, ds⟩
  · exact membersRest_eq rule [] [] []
  by_cases hclose : c = '\x7d'
  · subst hclose
    rfl
  · simp [hclose, Container.closing, membersRest_eq]

/-- An opening character starts what the container holds. -/
theorem valueRule_opening (deeper : Option (Rule Json)) (kind : Container) (cs : List Char) :
    valueRule deeper (kind.opening :: cs) = deeper.bind fun rule =>
      (containerRule rule kind cs).map fun (xs, cs) => (kind.wrap xs, cs) := by
  cases kind with
  | array =>
    cases deeper with
    | none => rfl
    | some rule =>
      show (arrayRule rule cs).map _ = _
      rw [arrayRule_eq]
      rfl
  | object =>
    cases deeper with
    | none => rfl
    | some rule =>
      show (objectRule rule cs).map _ = _
      rw [objectRule_eq]
      rfl

/-! ## Derivations of what is read -/

/-- The rule passes over spaces in front. -/
def Skips (rule : Rule Json) : Prop := ∀ sp cs, Spaces sp → rule (sp ++ cs) = rule cs

/-- What is read by the rule is derived, with no more levels than that. -/
def Derives (levels : Nat) (rule : Rule Json) : Prop :=
  ∀ cs v rest, rule cs = some (v, rest) → ∃ sp t, Spaces sp ∧ Tree.Legal t ∧
    t.value? = some v ∧ t.levels ≤ levels ∧ cs = sp ++ (t.text ++ rest)

section Sound

variable {rule : Rule Json} {levels : Nat} {kind : Container}

theorem elementRule_sound (hrule : Derives levels rule) {cs rest : List Char} {x : kind.Element}
    (h : elementRule rule kind cs = some (x, rest)) :
    ∃ (lead : Lead) (t : Tree), lead.Legal kind ∧ t.Legal ∧ t.levels ≤ levels ∧
      (t.value?.bind fun v => lead.attach? v kind) = some x ∧
      cs = lead.text ++ (t.text ++ rest) := by
  cases kind with
  | array =>
    obtain ⟨sp, t, hsp, hlegal, hvalue, hlevels, hcs⟩ := hrule cs x rest h
    exact ⟨.item sp, t, hsp, hlegal, hlevels, by simp [hvalue, Lead.attach?], hcs⟩
  | object =>
    simp only [elementRule] at h
    unfold memberRule at h
    obtain ⟨sp, hsp, hcs⟩ := skipSpace_split cs
    split at h
    · simp at h
    · next name ds hname =>
      obtain ⟨ls, hls, hstring, hds⟩ := stringRule_sound hname
      obtain ⟨sp', hsp', hds'⟩ := skipSpace_split ds
      split at h
      · next es hes =>
        obtain ⟨⟨v, rest'⟩, hvalue, heq⟩ := Option.map_eq_some_iff.1 h
        obtain ⟨rfl, rfl⟩ := Prod.mk.inj heq
        obtain ⟨sp'', t, hsp'', hlegal, ht, hlevels, rfl⟩ := hrule es v rest' hvalue
        refine ⟨.member sp ls sp' sp'', t, ⟨hsp, hls, hsp', hsp''⟩, hlegal, hlevels, ?_, ?_⟩
        · simp [ht, Lead.attach?, hstring]
        · rw [hcs, hds, hds', hes]
          simp [Lead.text]
      · simp at h

/-- Behind each element that has been read stands the closing character, or a comma and
more elements. -/
theorem elementsRest_cases {bound cs rest : List Char} {done ys : List kind.Element}
    (h : elementsRest rule kind bound done cs = some (ys, rest)) :
    ∃ x ds, elementRule rule kind cs = some (x, ds) ∧
      ((skipSpace ds = kind.closing :: rest ∧ ys = done.reverse ++ [x]) ∨
        ∃ b more es, bound = b :: more ∧ skipSpace ds = ',' :: es ∧
          elementsRest rule kind more (x :: done) es = some (ys, rest)) := by
  unfold elementsRest at h
  split at h
  · simp at h
  · next x ds helement =>
    refine ⟨x, ds, helement, ?_⟩
    split at h
    · simp at h
    · next c es hes =>
      split at h
      · next hclose =>
        obtain ⟨rfl, rfl⟩ := Prod.mk.inj (Option.some.inj h)
        exact Or.inl ⟨by rw [hes, hclose], by simp⟩
      · split at h
        · next hcomma =>
          split at h
          · simp at h
          · next b more => exact Or.inr ⟨b, more, es, rfl, by rw [hes, hcomma], h⟩
        · simp at h

theorem elementsRest_sound (hrule : Derives levels rule) {bound cs rest : List Char}
    {done ys : List kind.Element} (h : elementsRest rule kind bound done cs = some (ys, rest)) :
    ∃ (es : Entries) (xs : List kind.Element), es.Legal kind ∧ es.levels ≤ levels ∧
      es.elements? kind = some xs ∧ cs = es.text ++ kind.closing :: rest ∧
      ys = done.reverse ++ xs := by
  obtain ⟨x, ds, helement, hbehind⟩ := elementsRest_cases h
  obtain ⟨lead, t, hlead, hlegal, hlevels, hx, rfl⟩ := elementRule_sound hrule helement
  obtain ⟨sp, hsp, hds⟩ := skipSpace_split ds
  rcases hbehind with ⟨hclose, rfl⟩ | ⟨b, more, es, rfl, hcomma, hrest⟩
  · refine ⟨.last lead t sp, [x], ⟨hlead, hlegal, hsp⟩, hlevels, ?_, ?_, rfl⟩
    · simp [Entries.elements?, hx]
    · rw [hds, hclose]
      simp [Entries.text]
  · obtain ⟨fs, xs, hfs, hlevels', hxs, rfl, rfl⟩ := elementsRest_sound hrule hrest
    refine ⟨.cons lead t sp fs, x :: xs, ⟨hlead, hlegal, hsp, hfs⟩, ?_, ?_, ?_, by simp⟩
    · exact Nat.max_le.2 ⟨hlevels, hlevels'⟩
    · simp [Entries.elements?, hx, hxs]
    · rw [hds, hcomma]
      simp [Entries.text]
termination_by bound.length

theorem elementsRest_skips (hskips : Skips rule) {sp : List Char} (hsp : Spaces sp)
    (bound : List Char) (done : List kind.Element) (cs : List Char) :
    elementsRest rule kind bound done (sp ++ cs) = elementsRest rule kind bound done cs := by
  have helement : elementRule rule kind (sp ++ cs) = elementRule rule kind cs := by
    cases kind with
    | array => exact hskips sp cs hsp
    | object =>
      simp only [elementRule]
      unfold memberRule
      rw [skipSpace_append hsp]
  unfold elementsRest
  rw [helement]

theorem containerRule_sound (hskips : Skips rule) (hrule : Derives levels rule)
    {cs rest : List Char} {xs : List kind.Element}
    (h : containerRule rule kind cs = some (xs, rest)) :
    ∃ t : Tree, t.Legal ∧ t.value? = some (kind.wrap xs) ∧ t.levels ≤ levels + 1 ∧
      kind.opening :: cs = t.text ++ rest := by
  obtain ⟨sp, hsp, hcs⟩ := skipSpace_split cs
  have hfull : ∀ bound, elementsRest rule kind bound [] (skipSpace cs) = some (xs, rest) →
      ∃ t : Tree, t.Legal ∧ t.value? = some (kind.wrap xs) ∧ t.levels ≤ levels + 1 ∧
        kind.opening :: cs = t.text ++ rest := by
    intro bound hrest
    rw [← elementsRest_skips hskips hsp, ← hcs] at hrest
    obtain ⟨es, xs', hes, hlevels, hxs, rfl, rfl⟩ := elementsRest_sound hrule hrest
    exact ⟨.full kind es, hes, by simp [Tree.value?, hxs], Nat.succ_le_succ hlevels,
      by simp [Tree.text]⟩
  unfold containerRule at h
  split at h
  · next hnil => exact hfull [] (hnil ▸ h)
  · next c ds hds =>
    split at h
    · next hclose =>
      obtain ⟨rfl, rfl⟩ := Prod.mk.inj (Option.some.inj h)
      refine ⟨.empty kind sp, hsp, rfl, Nat.le_add_left 1 levels, ?_⟩
      rw [hcs, hds, hclose]
      simp [Tree.text]
    · exact hfull (c :: ds) (hds ▸ h)

theorem valueRule_skips (deeper : Option (Rule Json)) : Skips (valueRule deeper) := by
  intro sp cs hsp
  unfold valueRule
  rw [skipSpace_append hsp]

theorem valueRule_sound {deeper : Option (Rule Json)}
    (hdeeper : ∀ rule ∈ deeper, Skips rule ∧ ∃ n, levels = n + 1 ∧ Derives n rule) :
    Derives levels (valueRule deeper) := by
  intro cs v rest h
  obtain ⟨sp, hsp, hcs⟩ := skipSpace_split cs
  suffices ∃ t : Tree, t.Legal ∧ t.value? = some v ∧ t.levels ≤ levels ∧
      skipSpace cs = t.text ++ rest by
    obtain ⟨t, hlegal, hvalue, hlevels, htext⟩ := this
    exact ⟨sp, t, hsp, hlegal, hvalue, hlevels, by rw [← htext, ← hcs]⟩
  have hcontainer : ∀ (kind : Container) (ds : List Char),
      valueRule deeper (kind.opening :: ds) = some (v, rest) →
        ∃ t : Tree, t.Legal ∧ t.value? = some v ∧ t.levels ≤ levels ∧
          kind.opening :: ds = t.text ++ rest := by
    intro kind ds hvalue
    rw [valueRule_opening] at hvalue
    obtain ⟨rule, hrule, hmap⟩ := Option.bind_eq_some_iff.1 hvalue
    obtain ⟨⟨xs, rest'⟩, hread, heq⟩ := Option.map_eq_some_iff.1 hmap
    obtain ⟨rfl, rfl⟩ := Prod.mk.inj heq
    obtain ⟨hskips, n, rfl, hderives⟩ := hdeeper rule hrule
    exact containerRule_sound hskips hderives hread
  unfold valueRule at h
  split at h
  · next hds =>
    obtain ⟨rfl, rfl⟩ := Prod.mk.inj (Option.some.inj h)
    exact ⟨.scalar .null, trivial, rfl, Nat.zero_le levels, hds⟩
  · next hds =>
    obtain ⟨rfl, rfl⟩ := Prod.mk.inj (Option.some.inj h)
    exact ⟨.scalar (.bool true), trivial, rfl, Nat.zero_le levels, hds⟩
  · next hds =>
    obtain ⟨rfl, rfl⟩ := Prod.mk.inj (Option.some.inj h)
    exact ⟨.scalar (.bool false), trivial, rfl, Nat.zero_le levels, hds⟩
  · next hds =>
    obtain ⟨⟨s, rest'⟩, hread, heq⟩ := Option.map_eq_some_iff.1 h
    obtain ⟨rfl, rfl⟩ := Prod.mk.inj heq
    obtain ⟨ls, hls, hstring, htext⟩ := stringRule_sound hread
    refine ⟨.scalar (.string ls), hls, ?_, Nat.zero_le levels, hds.trans htext⟩
    simp [Tree.value?, Scalar.value?, hstring]
  · next ds hds =>
    rw [hds]
    exact hcontainer .array ds h
  · next ds hds =>
    rw [hds]
    exact hcontainer .object ds h
  · obtain ⟨⟨n, rest'⟩, hread, heq⟩ := Option.map_eq_some_iff.1 h
    obtain ⟨rfl, rfl⟩ := Prod.mk.inj heq
    obtain ⟨m, hm, hnumber, htext⟩ := numberRule_sound hread
    refine ⟨.scalar (.number m), hm, ?_, Nat.zero_le levels, htext⟩
    simp [Tree.value?, Scalar.value?, hnumber]

end Sound

theorem value_skips (levels : Nat) : Skips (value levels) := by
  cases levels with
  | zero => exact valueRule_skips none
  | succ levels => exact valueRule_skips (some (value levels))

/-- What is read as a value is derived. -/
theorem value_derives (levels : Nat) : Derives levels (value levels) := by
  induction levels with
  | zero => exact valueRule_sound (by simp)
  | succ levels ih =>
    refine valueRule_sound fun rule hrule => ?_
    obtain rfl := Option.some.inj hrule
    exact ⟨value_skips levels, levels, rfl, ih⟩

/-! ## Reading what is derived -/

/-- The rule reads the text of every derivation, with no more levels than that. -/
def ReadsTrees (levels : Nat) (rule : Rule Json) : Prop :=
  ∀ t : Tree, t.Legal → t.levels ≤ levels → ∀ v, t.value? = some v →
    ∀ rest, EndsNumber rest → rule (t.text ++ rest) = some (v, rest)

theorem Container.closing_not_space (kind : Container) : isSpace kind.closing = false := by
  cases kind <;> rfl

theorem endsNumber_closing (kind : Container) (cs : List Char) :
    EndsNumber (kind.closing :: cs) := by
  cases kind with
  | array => exact endsNumber_cons (by decide) cs
  | object => exact endsNumber_cons (by decide) cs

/-- A digit or a minus sign starts a number. -/
theorem Numeral.text_eq_cons {m : Numeral} (h : m.Legal) :
    ∃ c cs, m.text = c :: cs ∧ isSpace c = false ∧
      ∀ d : Char, d ≠ '-' → d.isDigit = false → c ≠ d := by
  obtain ⟨negative, whole, fraction, exponent⟩ := m
  cases negative with
  | true => exact ⟨'-', _, rfl, rfl, fun d hd _ => Ne.symm hd⟩
  | false =>
    obtain ⟨⟨hne, hdigits⟩, _⟩ := h
    obtain ⟨c, cs, rfl⟩ := List.exists_cons_of_ne_nil hne
    have hc : c.isDigit = true := hdigits c List.mem_cons_self
    exact ⟨c, _, rfl, isSpace_of_isDigit hc, fun d _ hd => ne_of_isDigit hc hd⟩

/-- A value starts with no space, and with no closing character. -/
theorem Tree.text_eq_cons {t : Tree} (h : t.Legal) :
    ∃ c cs, t.text = c :: cs ∧ isSpace c = false ∧ ∀ kind : Container, c ≠ kind.closing := by
  have hclosing : ∀ c : Char, c ≠ ']' → c ≠ '\x7d' → ∀ kind : Container, c ≠ kind.closing := by
    intro c harray hobject kind
    cases kind with
    | array => exact harray
    | object => exact hobject
  have hopening : ∀ kind : Container, isSpace kind.opening = false ∧
      ∀ kind' : Container, kind.opening ≠ kind'.closing := by
    intro kind
    cases kind with
    | array => exact ⟨rfl, hclosing _ (by decide) (by decide)⟩
    | object => exact ⟨rfl, hclosing _ (by decide) (by decide)⟩
  cases t with
  | scalar s =>
    cases s with
    | null => exact ⟨'n', _, rfl, rfl, hclosing _ (by decide) (by decide)⟩
    | bool b =>
      cases b with
      | true => exact ⟨'t', _, rfl, rfl, hclosing _ (by decide) (by decide)⟩
      | false => exact ⟨'f', _, rfl, rfl, hclosing _ (by decide) (by decide)⟩
    | string ls => exact ⟨'"', _, rfl, rfl, hclosing _ (by decide) (by decide)⟩
    | number m =>
      obtain ⟨c, cs, htext, hspace, hne⟩ := m.text_eq_cons h
      exact ⟨c, cs, htext, hspace, hclosing c (hne _ (by decide) (by decide))
        (hne _ (by decide) (by decide))⟩
  | empty kind sp => exact ⟨kind.opening, _, rfl, hopening kind⟩
  | full kind es => exact ⟨kind.opening, _, rfl, hopening kind⟩

section Complete

variable {rule : Rule Json} {levels : Nat} {kind : Container}

theorem elementRule_text (hskips : Skips rule) (hreads : ReadsTrees levels rule) {lead : Lead}
    {t : Tree} {x : kind.Element} (hlead : lead.Legal kind) (ht : t.Legal)
    (hlevels : t.levels ≤ levels) (hx : (t.value?.bind fun v => lead.attach? v kind) = some x)
    {rest : List Char} (hrest : EndsNumber rest) :
    elementRule rule kind (lead.text ++ (t.text ++ rest)) = some (x, rest) := by
  obtain ⟨v, hv, hattach⟩ := Option.bind_eq_some_iff.1 hx
  have hread := hreads t ht hlevels v hv rest hrest
  cases kind with
  | array =>
    cases lead with
    | item sp =>
      obtain rfl := Option.some.inj hattach
      exact (hskips sp _ hlead).trans hread
    | member sp name before after => exact hlead.elim
  | object =>
    cases lead with
    | item sp => exact hlead.elim
    | member sp name before after =>
      obtain ⟨hsp, hname, hbefore, hafter⟩ := hlead
      obtain ⟨s, hs, rfl⟩ := Option.map_eq_some_iff.1 hattach
      have hquote : ∀ cs, skipSpace (quoted name ++ cs) = quoted name ++ cs :=
        fun cs => skipSpace_cons (c := '"') (by decide) _
      have hstring := stringRule_quoted hname hs (before ++ ':' :: (after ++ (t.text ++ rest)))
      have hcolon : skipSpace (before ++ ':' :: (after ++ (t.text ++ rest))) =
          ':' :: (after ++ (t.text ++ rest)) := by
        rw [skipSpace_append hbefore, skipSpace_cons (by decide)]
      simp only [elementRule, Lead.text, memberRule, List.append_assoc, List.cons_append,
        skipSpace_append hsp, hquote, hstring, hcolon, hskips after _ hafter, hread,
        Option.map_some]

theorem elementsRest_last {cs ds rest : List Char} {x : kind.Element}
    (helement : elementRule rule kind cs = some (x, ds))
    (hclose : skipSpace ds = kind.closing :: rest) (bound : List Char)
    (done : List kind.Element) :
    elementsRest rule kind bound done cs = some (done.reverse ++ [x], rest) := by
  unfold elementsRest
  simp [helement, hclose]

theorem elementsRest_more {cs ds es : List Char} {x : kind.Element}
    (helement : elementRule rule kind cs = some (x, ds)) (hcomma : skipSpace ds = ',' :: es)
    (b : Char) (bound : List Char) (done : List kind.Element) :
    elementsRest rule kind (b :: bound) done cs =
      elementsRest rule kind bound (x :: done) es := by
  have hne : ',' ≠ kind.closing := by cases kind <;> decide
  rw [elementsRest]
  simp [helement, hcomma, hne]

theorem elementsRest_text (hskips : Skips rule) (hreads : ReadsTrees levels rule) :
    (es : Entries) → es.Legal kind → es.levels ≤ levels → {xs : List kind.Element} →
    es.elements? kind = some xs → (bound : List Char) → es.text.count ',' ≤ bound.length →
    (done : List kind.Element) → (rest : List Char) →
    elementsRest rule kind bound done (es.text ++ kind.closing :: rest) =
      some (done.reverse ++ xs, rest)
  | .last lead t sp, ⟨hlead, ht, hsp⟩, hlevels, xs, hxs, bound, _, done, rest => by
    obtain ⟨x, hx, rfl⟩ := Option.map_eq_some_iff.1 hxs
    have hends := endsNumber_append hsp (endsNumber_closing kind rest)
    have helement := elementRule_text hskips hreads hlead ht hlevels hx hends
    have hclose : skipSpace (sp ++ kind.closing :: rest) = kind.closing :: rest := by
      rw [skipSpace_append hsp, skipSpace_cons kind.closing_not_space]
    have htext : (Entries.last lead t sp).text ++ kind.closing :: rest =
        lead.text ++ (t.text ++ (sp ++ kind.closing :: rest)) := by simp [Entries.text]
    rw [htext]
    exact elementsRest_last helement hclose bound done
  | .cons lead t sp es, ⟨hlead, ht, hsp, hes⟩, hlevels, xs, hxs, bound, hbound, done, rest => by
    obtain ⟨x, hx, hmap⟩ := Option.bind_eq_some_iff.1 hxs
    obtain ⟨ys, hys, rfl⟩ := Option.map_eq_some_iff.1 hmap
    obtain ⟨hfirst, hmore⟩ := Nat.max_le.1 hlevels
    have hends : EndsNumber (sp ++ ',' :: (es.text ++ kind.closing :: rest)) :=
      endsNumber_append hsp (endsNumber_cons (by decide) _)
    have helement := elementRule_text hskips hreads hlead ht hfirst hx hends
    have hcomma : skipSpace (sp ++ ',' :: (es.text ++ kind.closing :: rest)) =
        ',' :: (es.text ++ kind.closing :: rest) := by
      rw [skipSpace_append hsp, skipSpace_cons (by decide)]
    have htext : (Entries.cons lead t sp es).text ++ kind.closing :: rest =
        lead.text ++ (t.text ++ (sp ++ ',' :: (es.text ++ kind.closing :: rest))) := by
      simp [Entries.text]
    simp only [Entries.text, List.count_append, List.count_cons_self] at hbound
    cases bound with
    | nil => exact absurd hbound (by simp)
    | cons b bound =>
      have hbound' : es.text.count ',' ≤ bound.length := by
        rw [List.length_cons] at hbound
        omega
      rw [htext, elementsRest_more helement hcomma,
        elementsRest_text hskips hreads es hes hmore hys bound hbound' (x :: done) rest]
      simp

/-- No closing character is the first in front of an element. -/
theorem Lead.head_ne_closing {lead : Lead} {cs : List Char} (hlead : lead.Legal kind)
    (hcs : ∀ c ∈ (skipSpace cs).head?, c ≠ kind.closing) :
    ∀ c ∈ (skipSpace (lead.text ++ cs)).head?, c ≠ kind.closing := by
  cases kind with
  | array =>
    cases lead with
    | item sp =>
      rw [Lead.text, skipSpace_append hlead]
      exact hcs
    | member sp name before after => exact hlead.elim
  | object =>
    cases lead with
    | item sp => exact hlead.elim
    | member sp name before after =>
      rw [Lead.text, List.append_assoc, skipSpace_append hlead.1]
      intro c hc
      obtain rfl : '"' = c := by simpa [quoted, skipSpace_cons (c := '"') (by decide)] using hc
      decide

theorem Entries.head_ne_closing {es : Entries} (hes : es.Legal kind) (cs : List Char) :
    ∀ c ∈ (skipSpace (es.text ++ cs)).head?, c ≠ kind.closing := by
  have htree : ∀ (t : Tree) (ds : List Char), t.Legal →
      ∀ c ∈ (skipSpace (t.text ++ ds)).head?, c ≠ kind.closing := by
    intro t ds ht
    obtain ⟨c, cs, htext, hspace, hclosing⟩ := t.text_eq_cons ht
    rw [htext, List.cons_append, skipSpace_cons hspace]
    simpa using hclosing kind
  cases es with
  | last lead t sp =>
    obtain ⟨hlead, ht, _⟩ := hes
    rw [Entries.text, List.append_assoc, List.append_assoc]
    exact lead.head_ne_closing hlead (htree t _ ht)
  | cons lead t sp es =>
    obtain ⟨hlead, ht, _⟩ := hes
    rw [Entries.text, List.append_assoc, List.append_assoc]
    exact lead.head_ne_closing hlead (htree t _ ht)

theorem count_comma_skipSpace (cs : List Char) : (skipSpace cs).count ',' = cs.count ',' := by
  obtain ⟨sp, hsp, hcs⟩ := skipSpace_split cs
  have hnone : sp.count ',' = 0 :=
    List.count_eq_zero.2 fun hmem => absurd (hsp ',' hmem) (by decide)
  have hcount := congrArg (List.count ',') hcs
  rw [List.count_append, hnone, Nat.zero_add] at hcount
  exact hcount.symm

theorem containerRule_text (hskips : Skips rule) (hreads : ReadsTrees levels rule) {es : Entries}
    (hes : es.Legal kind) (hlevels : es.levels ≤ levels) {xs : List kind.Element}
    (hxs : es.elements? kind = some xs) (rest : List Char) :
    containerRule rule kind (es.text ++ kind.closing :: rest) = some (xs, rest) := by
  obtain ⟨sp, hsp, hcs⟩ := skipSpace_split (es.text ++ kind.closing :: rest)
  have hread : ∀ bound, es.text.count ',' ≤ bound.length →
      elementsRest rule kind bound [] (skipSpace (es.text ++ kind.closing :: rest)) =
        some (xs, rest) := by
    intro bound hbound
    rw [← elementsRest_skips hskips hsp, ← hcs]
    exact elementsRest_text hskips hreads es hes hlevels hxs bound hbound [] rest
  have hbound : es.text.count ',' ≤ (skipSpace (es.text ++ kind.closing :: rest)).length := by
    refine Nat.le_trans ?_ (List.count_le_length (a := ','))
    rw [count_comma_skipSpace, List.count_append]
    exact Nat.le_add_right _ _
  have hhead := es.head_ne_closing hes (kind.closing :: rest)
  unfold containerRule
  split
  · next hnil =>
    rw [hnil] at hbound hread
    exact hread [] hbound
  · next c ds hds =>
    rw [hds] at hbound hread hhead
    rw [if_neg (hhead c rfl)]
    exact hread (c :: ds) hbound

theorem valueRule_number {deeper : Option (Rule Json)} {m : Numeral} (hm : m.Legal)
    (rest : List Char) :
    valueRule deeper (m.text ++ rest) =
      (numberRule (m.text ++ rest)).map fun (n, cs) => (.number n, cs) := by
  obtain ⟨c, cs, htext, hspace, hne⟩ := m.text_eq_cons hm
  rw [htext, List.cons_append]
  unfold valueRule
  rw [skipSpace_cons hspace]
  split
  · next heq => exact absurd (List.cons.inj heq).1 (hne 'n' (by decide) (by decide))
  · next heq => exact absurd (List.cons.inj heq).1 (hne 't' (by decide) (by decide))
  · next heq => exact absurd (List.cons.inj heq).1 (hne 'f' (by decide) (by decide))
  · next heq => exact absurd (List.cons.inj heq).1 (hne '"' (by decide) (by decide))
  · next heq => exact absurd (List.cons.inj heq).1 (hne '[' (by decide) (by decide))
  · next heq => exact absurd (List.cons.inj heq).1 (hne '\x7b' (by decide) (by decide))
  · rfl

theorem valueRule_scalar (deeper : Option (Rule Json)) {s : Scalar} (hs : s.Legal) {v : Json}
    (hv : s.value? = some v) {rest : List Char} (hrest : EndsNumber rest) :
    valueRule deeper (s.text ++ rest) = some (v, rest) := by
  cases s with
  | null =>
    obtain rfl := Option.some.inj hv
    rfl
  | bool b =>
    obtain rfl := Option.some.inj hv
    cases b <;> rfl
  | number m =>
    obtain ⟨n, hn, rfl⟩ := Option.map_eq_some_iff.1 hv
    have hread := numberRule_text hs hrest
    rw [hn] at hread
    rw [Scalar.text, valueRule_number hs, hread]
    rfl
  | string ls =>
    obtain ⟨s, hs', rfl⟩ := Option.map_eq_some_iff.1 hv
    have hread := stringRule_quoted hs hs' rest
    show (stringRule (quoted ls ++ rest)).map _ = _
    rw [hread]
    rfl

end Complete

/-- The text of a derivation is read as a value, if so many levels are read. -/
theorem value_readsTrees (levels : Nat) : ReadsTrees levels (value levels) := by
  induction levels with
  | zero =>
    intro t ht hlevels v hv rest hrest
    cases t with
    | scalar s => exact valueRule_scalar none ht hv hrest
    | empty kind sp => exact absurd hlevels (by simp [Tree.levels])
    | full kind es => exact absurd hlevels (by simp [Tree.levels])
  | succ levels ih =>
    intro t ht hlevels v hv rest hrest
    cases t with
    | scalar s => exact valueRule_scalar _ ht hv hrest
    | empty kind sp =>
      obtain rfl := Option.some.inj hv
      show valueRule (some (value levels)) (kind.opening :: (sp ++ [kind.closing] ++ rest)) = _
      have hread : containerRule (value levels) kind (sp ++ [kind.closing] ++ rest) =
          some ([], rest) := by
        rw [containerRule, List.append_assoc, List.singleton_append, skipSpace_append ht,
          skipSpace_cons kind.closing_not_space]
        simp
      rw [valueRule_opening, Option.bind_some, hread]
      rfl
    | full kind es =>
      obtain ⟨xs, hxs, rfl⟩ := Option.map_eq_some_iff.1 hv
      have hread := containerRule_text (value_skips levels) ih ht (Nat.le_of_succ_le_succ hlevels)
        hxs rest
      show valueRule (some (value levels)) (kind.opening :: (es.text ++ [kind.closing] ++ rest)) = _
      rw [List.append_assoc, List.singleton_append, valueRule_opening, Option.bind_some, hread]
      rfl

/-! ## Whole texts -/

/-- A text is read as a value exactly if it is derived with that value, in as many levels
as are read. -/
theorem parse?_eq_some_iff {levels : Nat} {cs : List Char} {v : Json} :
    parse? levels cs = some v ↔ ∃ d : Derivation, d.Legal ∧ d.text = cs ∧ d.value? = some v ∧
      d.tree.levels ≤ levels := by
  constructor
  · intro h
    unfold parse? at h
    split at h
    · next w rest hread =>
      obtain ⟨hend, heq⟩ := Option.ite_none_right_eq_some.1 h
      obtain rfl := Option.some.inj heq
      obtain ⟨sp, t, hsp, ht, hvalue, hlevels, rfl⟩ := value_derives levels cs w rest hread
      obtain ⟨sp', hsp', hrest⟩ := skipSpace_split rest
      rw [List.isEmpty_iff.1 hend, List.append_nil] at hrest
      exact ⟨⟨sp, t, sp'⟩, ⟨hsp, ht, hsp'⟩, by rw [hrest]; rfl, hvalue, hlevels⟩
    · simp at h
  · rintro ⟨⟨sp, t, sp'⟩, ⟨hsp, ht, hsp'⟩, rfl, hvalue, hlevels⟩
    have hends : EndsNumber sp' := by
      have happend : EndsNumber (sp' ++ []) := endsNumber_append hsp' (by simp [EndsNumber])
      rwa [List.append_nil] at happend
    have hread := value_readsTrees levels t ht hlevels v hvalue sp' hends
    have hend : skipSpace sp' = [] := by
      have happend := skipSpace_append hsp' []
      rwa [List.append_nil] at happend
    rw [Derivation.text, parse?, value_skips levels sp _ hsp, hread]
    simp [hend]

end Json
end LispSyntax
