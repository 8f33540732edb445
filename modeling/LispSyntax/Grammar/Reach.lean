/-
What a rule reads over.

A cursor reaches another if the text between them makes up the difference, both
in characters and in bytes.  Every cursor that a rule gives is reached from the
cursor it was given, and behind a match at least one character has been read:
`Rule.Reads` states this of a rule, and `expression_reads` shows it of
expressions at every depth.  Hence every offset in a tree or a stall is the
width of the text before it.
-/
import LispSyntax.Grammar.Expression
import LispSyntax.Text.Bytes

namespace LispSyntax
namespace Grammar

open Text

/-- The text `past` lies between the cursors `c` and `d`. -/
def Cursor.Over (c : Cursor) (past : List Char) (d : Cursor) : Prop :=
  c.rest = past ++ d.rest ∧ d.offset = c.offset + width past

/-- The cursor `d` is `c` or further on in the same text. -/
def Cursor.Reaches (c d : Cursor) : Prop := ∃ past, c.Over past d

/-- The cursor `d` is further on than `c` in the same text. -/
def Cursor.Passes (c d : Cursor) : Prop := ∃ past, past ≠ [] ∧ c.Over past d

namespace Cursor

variable {c d e : Cursor} {cs ds : List Char}

theorem Over.trans (hcd : c.Over cs d) (hde : d.Over ds e) : c.Over (cs ++ ds) e :=
  ⟨by rw [hcd.1, hde.1, List.append_assoc], by rw [hde.2, hcd.2, width_append, Nat.add_assoc]⟩

theorem Reaches.refl (c : Cursor) : c.Reaches c := ⟨[], rfl, rfl⟩

theorem Reaches.trans (hcd : c.Reaches d) (hde : d.Reaches e) : c.Reaches e := by
  obtain ⟨cs, hcs⟩ := hcd
  obtain ⟨ds, hds⟩ := hde
  exact ⟨cs ++ ds, hcs.trans hds⟩

theorem Passes.reaches (h : c.Passes d) : c.Reaches d := by
  obtain ⟨past, _, hover⟩ := h
  exact ⟨past, hover⟩

theorem Passes.trans_reaches (hcd : c.Passes d) (hde : d.Reaches e) : c.Passes e := by
  obtain ⟨cs, hne, hcs⟩ := hcd
  obtain ⟨ds, hds⟩ := hde
  exact ⟨cs ++ ds, by simp [hne], hcs.trans hds⟩

theorem Reaches.trans_passes (hcd : c.Reaches d) (hde : d.Passes e) : c.Passes e := by
  obtain ⟨cs, hcs⟩ := hcd
  obtain ⟨ds, hne, hds⟩ := hde
  exact ⟨cs ++ ds, by simp [hne], hcs.trans hds⟩

/-- One character lies between two cursors. -/
theorem passes_cons (offset : Nat) (a : Char) (as : List Char) :
    Passes ⟨offset, a :: as⟩ ⟨offset + a.utf8Size, as⟩ :=
  ⟨[a], by simp, rfl, by simp⟩

/-- What is left behind a cursor ends what was left before it. -/
theorem Reaches.suffix (h : c.Reaches d) : d.rest <:+ c.rest := by
  obtain ⟨past, hrest, _⟩ := h
  exact ⟨past, hrest.symm⟩

theorem Reaches.length_le (h : c.Reaches d) : d.rest.length ≤ c.rest.length :=
  h.suffix.length_le

theorem Reaches.offset_le (h : c.Reaches d) : c.offset ≤ d.offset := by
  obtain ⟨past, _, hoffset⟩ := h
  omega

/-- Less is left behind a cursor further on. -/
theorem Passes.length_lt (h : c.Passes d) : d.rest.length < c.rest.length := by
  obtain ⟨past, hne, hrest, _⟩ := h
  have := List.length_pos_iff.2 hne
  rw [hrest, List.length_append]
  omega

theorem Passes.offset_lt (h : c.Passes d) : c.offset < d.offset := by
  obtain ⟨past, hne, _, hoffset⟩ := h
  cases past with
  | nil => exact absurd rfl hne
  | cons a as =>
    have := a.utf8Size_pos
    rw [width_cons] at hoffset
    omega

end Cursor

/-! ## Gaps -/

theorem skipLine_reaches (offset : Nat) (cs : List Char) :
    Cursor.Reaches ⟨offset, cs⟩ (skipLine offset cs) := by
  induction cs generalizing offset with
  | nil => exact .refl _
  | cons c cs ih =>
    unfold skipLine
    split
    · exact (Cursor.passes_cons offset c cs).reaches
    · exact (Cursor.passes_cons offset c cs).reaches.trans (ih _)

theorem skipGap_reaches (inComment : Bool) (offset : Nat) (cs : List Char) :
    Cursor.Reaches ⟨offset, cs⟩ (skipGap inComment offset cs) := by
  induction cs generalizing inComment offset with
  | nil => exact .refl _
  | cons c cs ih =>
    have hone := (Cursor.passes_cons offset c cs).reaches
    unfold skipGap
    split
    · exact hone.trans (ih _ _)
    · split
      · exact hone.trans (ih _ _)
      · split
        · exact hone.trans (ih _ _)
        · exact .refl _

theorem Cursor.pastGap_reaches (c : Cursor) : c.Reaches c.pastGap := skipGap_reaches ..

theorem Cursor.pastShebang_reaches (c : Cursor) : c.Reaches c.pastShebang := by
  obtain ⟨offset, rest⟩ := c
  unfold pastShebang
  split
  · next cs hrest =>
    obtain rfl : rest = '#' :: '!' :: cs := hrest
    exact Reaches.trans ⟨['#', '!'], rfl, rfl⟩ (skipLine_reaches _ _)
  · exact .refl _

/-- A gap ends with the text, or where a character with meaning stands. -/
theorem skipGap_stops (inComment : Bool) (offset : Nat) (cs : List Char) :
    ∀ c ∈ (skipGap inComment offset cs).rest.head?, isBlank c = false ∧ c ≠ ';' := by
  induction cs generalizing inComment offset with
  | nil => simp [skipGap]
  | cons c cs ih =>
    unfold skipGap
    split
    · exact ih _ _
    · split
      · exact ih _ _
      · split
        · exact ih _ _
        · next hblank hcomment =>
          intro d hd
          obtain rfl : c = d := by simpa using hd
          exact ⟨by simpa using hblank, hcomment⟩

/-! ## Tokens -/

/-- What an outcome may give to a rule that was given the cursor `c`: behind a
match a character at least has been read, and a stall lies in the text. -/
def Outcome.From {α : Type} (c : Cursor) : Outcome α → Prop
  | .matched _ next => c.Passes next
  | .declined s => c.Reaches s.place
  | .failed s => c.Reaches s.place

/-- The rule goes on in the text that it is given. -/
def Rule.Reads (r : Rule) : Prop := ∀ c, (r c).From c

theorem Outcome.From.of_passes {α : Type} {c d : Cursor} {o : Outcome α} (hcd : c.Passes d)
    (h : o.From d) : o.From c := by
  cases o with
  | matched _ next => exact hcd.trans_reaches h.reaches
  | declined s => exact hcd.reaches.trans h
  | failed s => exact hcd.reaches.trans h

theorem closeAtom_from {done : List Char} {c d : Cursor} (hcd : c.Reaches d)
    (hdone : done ≠ [] → c.Passes d) : (closeAtom done d).From c := by
  unfold closeAtom
  split
  · exact hcd
  · next h => exact hdone (by simpa using h)

theorem atomRun_from (c : Cursor) (done : List Char) (offset : Nat) (cs : List Char)
    (hcd : c.Reaches ⟨offset, cs⟩) (hdone : done ≠ [] → c.Passes ⟨offset, cs⟩) :
    (atomRun done offset cs).From c := by
  fun_induction atomRun done offset cs with
  | case1 done offset => exact closeAtom_from hcd hdone
  | case2 done offset => exact hcd.trans (Cursor.passes_cons offset '\\' []).reaches
  | case3 done offset a cs _ ih =>
    have hpass : c.Passes ⟨offset + 1 + a.utf8Size, cs⟩ :=
      (hcd.trans_passes (Cursor.passes_cons offset '\\' (a :: cs))).trans_reaches
        (Cursor.passes_cons (offset + 1) a cs).reaches
    exact ih hpass.reaches fun _ => hpass
  | case4 done offset a cs _ =>
    exact hcd.trans (Cursor.passes_cons offset '\\' (a :: cs)).reaches
  | case5 done offset a cs _ _ _ => exact closeAtom_from hcd hdone
  | case6 done offset a cs _ _ _ ih =>
    have hpass := hcd.trans_passes (Cursor.passes_cons offset a cs)
    exact ih hpass.reaches fun _ => hpass

theorem atomToken_from (c : Cursor) : (atomToken c).From c :=
  atomRun_from c [] c.offset c.rest (.refl c) fun h => absurd rfl h

theorem stringRun_from (done : List Char) (offset : Nat) (cs : List Char) :
    (stringRun done offset cs).From ⟨offset, cs⟩ := by
  fun_induction stringRun done offset cs with
  | case1 done offset => exact .refl _
  | case2 done offset cs => exact Cursor.passes_cons offset '"' cs
  | case3 done offset => exact (Cursor.passes_cons offset '\\' []).reaches
  | case4 done offset a cs d _ ih =>
    exact ih.of_passes ((Cursor.passes_cons offset '\\' (a :: cs)).trans_reaches
      (Cursor.passes_cons (offset + 1) a cs).reaches)
  | case5 done offset a cs _ => exact (Cursor.passes_cons offset '\\' (a :: cs)).reaches
  | case6 done offset a cs _ _ _ ih => exact ih.of_passes (Cursor.passes_cons offset a cs)

theorem stringToken_from (c : Cursor) : (stringToken c).From c := by
  obtain ⟨offset, rest⟩ := c
  unfold stringToken
  split
  · next cs hrest =>
    obtain rfl : rest = '"' :: cs := hrest
    exact (stringRun_from [] (offset + 1) cs).of_passes (Cursor.passes_cons offset '"' cs)
  · exact .refl _

theorem markerToken_from (c : Cursor) : (markerToken c).From c := by
  obtain ⟨offset, rest⟩ := c
  unfold markerToken
  split
  · next cs hrest => exact ⟨['\x27'], by simp, hrest, rfl⟩
  · next cs hrest => exact ⟨['\x60'], by simp, hrest, rfl⟩
  · next cs hrest => exact ⟨[',', '@'], by simp, hrest, rfl⟩
  · next cs _ hrest => exact ⟨[','], by simp, hrest, rfl⟩
  · exact .refl _

/-! ## Expressions -/

theorem atomRule_reads : Rule.Reads atomRule := by
  intro c
  have h := atomToken_from c
  unfold atomRule
  split
  · next text next htoken =>
    rw [htoken] at h
    exact Cursor.Passes.trans_reaches h next.pastGap_reaches
  · next s htoken => rw [htoken] at h; exact h
  · next s htoken => rw [htoken] at h; exact h

theorem stringRule_reads : Rule.Reads stringRule := by
  intro c
  have h := stringToken_from c
  unfold stringRule
  split
  · next text next htoken =>
    rw [htoken] at h
    exact Cursor.Passes.trans_reaches h next.pastGap_reaches
  · next s htoken => rw [htoken] at h; exact h
  · next s htoken => rw [htoken] at h; exact h

theorem Stall.further_reaches {c : Cursor} {s t : Stall} (hs : c.Reaches s.place)
    (ht : c.Reaches t.place) : c.Reaches (s.further t).place := by
  unfold further
  split
  · exact hs
  · exact ht

/-- A sequence lies in the text it was read from, and so does what stopped
it. -/
theorem sequence_reaches {rule : Rule} (hrule : rule.Reads) (bound : List Char)
    (done : List (Node Nat)) (c : Cursor) :
    match sequence rule bound done c with
    | .ok q => c.Reaches q.stop ∧ c.Reaches q.stall.place
    | .error s => c.Reaches s.place := by
  induction bound generalizing done c with
  | nil =>
    have h := hrule c
    unfold sequence
    cases hc : rule c with
    | matched n next => exact ⟨.refl c, .refl c⟩
    | declined s => rw [hc] at h; exact ⟨.refl c, h⟩
    | failed s => rw [hc] at h; exact h
  | cons b bound ih =>
    have h := hrule c
    unfold sequence
    cases hc : rule c with
    | matched n next =>
      rw [hc] at h
      have hnext := ih (n :: done) next
      show match sequence rule bound (n :: done) next with
        | .ok q => c.Reaches q.stop ∧ c.Reaches q.stall.place
        | .error s => c.Reaches s.place
      cases hq : sequence rule bound (n :: done) next with
      | ok q =>
        rw [hq] at hnext
        exact ⟨h.reaches.trans hnext.1, h.reaches.trans hnext.2⟩
      | error s =>
        rw [hq] at hnext
        exact h.reaches.trans hnext
    | declined s => rw [hc] at h; exact ⟨.refl c, h⟩
    | failed s => rw [hc] at h; exact h

theorem listRule_reads {deeper : Option Rule} (hdeeper : ∀ rule ∈ deeper, rule.Reads) :
    Rule.Reads (listRule deeper) := by
  intro c
  obtain ⟨offset, rest⟩ := c
  unfold listRule
  split
  · exact .refl _
  · next cs rule hrest =>
    obtain rfl : rest = '(' :: cs := hrest
    have hopen := Cursor.passes_cons offset '(' cs
    have hfirst := hopen.trans_reaches (Cursor.pastGap_reaches ⟨offset + 1, cs⟩)
    have hinner := sequence_reaches (hdeeper rule rfl) cs [] (Cursor.pastGap ⟨offset + 1, cs⟩)
    split
    · next s hs =>
      rw [hs] at hinner
      exact hfirst.reaches.trans hinner
    · next q hq =>
      rw [hq] at hinner
      split
      · next after hafter =>
        have hstop : Cursor.Passes q.stop ⟨q.stop.offset + 1, after⟩ :=
          ⟨[')'], by simp, hafter, rfl⟩
        exact (hfirst.trans_reaches (hinner.1.trans hstop.reaches)).trans_reaches
          (Cursor.pastGap_reaches _)
      · exact Stall.further_reaches (hfirst.reaches.trans hinner.2)
          (hfirst.reaches.trans hinner.1)
  · exact .refl _

theorem quotationRule_reads {deeper : Option Rule} (hdeeper : ∀ rule ∈ deeper, rule.Reads) :
    Rule.Reads (quotationRule deeper) := by
  intro c
  have h := markerToken_from c
  unfold quotationRule
  split
  · exact .refl _
  · next k next rule hmarker =>
    rw [hmarker] at h
    have hbody := (hdeeper rule rfl next.pastGap).of_passes
      (Cursor.Passes.trans_reaches h next.pastGap_reaches)
    split
    · next body last hlast => rw [hlast] at hbody; exact hbody
    · next s hs => rw [hs] at hbody; exact hbody
    · next s hs => rw [hs] at hbody; exact hbody
  · next s _ hmarker => rw [hmarker] at h; exact h
  · next s _ hmarker => rw [hmarker] at h; exact h

theorem firstOf_reads {rules : List Rule} (hrules : ∀ r ∈ rules, r.Reads) :
    Rule.Reads (firstOf rules) := by
  intro c
  induction rules with
  | nil => exact .refl c
  | cons r rs ih =>
    have hr := hrules r List.mem_cons_self c
    have hrs := ih fun s hs => hrules s (List.mem_cons_of_mem r hs)
    unfold firstOf
    split
    · next s hs =>
      rw [hs] at hr
      split
      · next t ht =>
        rw [ht] at hrs
        exact Stall.further_reaches hr hrs
      · exact hrs
    · exact hr

theorem Form.rule_reads {deeper : Option Rule} (hdeeper : ∀ rule ∈ deeper, rule.Reads)
    (f : Form) : Rule.Reads (f.rule deeper) := by
  cases f with
  | list => exact listRule_reads hdeeper
  | atom => exact atomRule_reads
  | string => exact stringRule_reads
  | quotation => exact quotationRule_reads hdeeper

/-- Expressions go on in the text that they are read from, and take a character
at least. -/
theorem expression_reads (levels : Nat) : Rule.Reads (expression levels) := by
  have hall {deeper : Option Rule} (hdeeper : ∀ rule ∈ deeper, rule.Reads) :
      ∀ r ∈ Form.all.map (Form.rule deeper), r.Reads := by
    intro r hr
    obtain ⟨f, _, rfl⟩ := List.mem_map.1 hr
    exact f.rule_reads hdeeper
  induction levels with
  | zero => exact firstOf_reads (hall fun rule hrule => nomatch hrule)
  | succ levels ih =>
    refine firstOf_reads (hall fun rule hrule => ?_)
    obtain rfl : (fun d => expression levels d) = rule := by simpa using hrule
    exact ih

end Grammar
end LispSyntax
