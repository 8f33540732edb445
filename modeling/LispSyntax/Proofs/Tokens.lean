/-
What the readers of gaps and tokens make of a text.

For each of them there are two facts.  It goes over the text of a derivation as a
whole, and every text it is given begins with such a text, behind which it comes
to a stop.  An atom stops before a reserved character or behind a backslash that
escapes nothing; a string stops behind its delimiter, at the end of the text or
behind a backslash.
-/
import LispSyntax.Proofs.Unambiguity

namespace LispSyntax
namespace Grammar

open Text

namespace Cursor

variable {c d e : Cursor} {cs ds : List Char}

theorem Over.nil (c : Cursor) : c.Over [] c := ⟨rfl, rfl⟩

theorem Over.eq_of_nil (h : c.Over [] d) : c = d := by
  obtain ⟨o, rest⟩ := c
  obtain ⟨o', rest'⟩ := d
  obtain ⟨hrest, hoffset⟩ := h
  obtain rfl : rest = rest' := hrest
  obtain rfl : o' = o := hoffset
  rfl

/-- A text in front of a cursor is passed in one way. -/
theorem Over.unique {e : Cursor} (hd : c.Over cs d) (he : c.Over cs e) : d = e := by
  obtain ⟨o, rest⟩ := d
  obtain ⟨o', rest'⟩ := e
  obtain rfl : rest = rest' := List.append_cancel_left (hd.1.symm.trans he.1)
  obtain rfl : o = o' := hd.2.trans he.2.symm
  rfl

theorem Over.split (h : c.Over (cs ++ ds) d) : ∃ mid, c.Over cs mid ∧ mid.Over ds d := by
  refine ⟨⟨c.offset + width cs, ds ++ d.rest⟩, ⟨?_, rfl⟩, rfl, ?_⟩
  · rw [h.1, List.append_assoc]
  · show d.offset = c.offset + width cs + width ds
    rw [h.2, width_append, Nat.add_assoc]

theorem Over.split_cons {a : Char} (h : c.Over (a :: cs) d) :
    ∃ mid, c.Over [a] mid ∧ mid.Over cs d :=
  Over.split h

theorem Over.eq_of_singleton {a : Char} (h : c.Over [a] d) :
    c = ⟨c.offset, a :: d.rest⟩ ∧ d = ⟨c.offset + a.utf8Size, d.rest⟩ := by
  obtain ⟨o, rest⟩ := c
  obtain ⟨o', rest'⟩ := d
  obtain ⟨hrest, hoffset⟩ := h
  obtain rfl : rest = a :: rest' := hrest
  obtain rfl : o' = o + a.utf8Size := hoffset
  exact ⟨rfl, rfl⟩

end Cursor

/-! ## Gaps -/

theorem skipLine_eq {l : Line} {o : Nat} {cs : List Char} {d : Cursor}
    (h : Cursor.Over ⟨o, cs⟩ l.text d) (hl : l.Legal d.rest) : skipLine o cs = d := by
  obtain ⟨body, closed⟩ := l
  induction body generalizing o cs with
  | nil =>
    cases closed with
    | true =>
      obtain ⟨hc, hd⟩ := Cursor.Over.eq_of_singleton (a := '\n') h
      obtain rfl : cs = '\n' :: d.rest := congrArg Cursor.rest hc
      exact hd.symm
    | false =>
      have hrest : d.rest = [] := hl.2 rfl
      have hc := Cursor.Over.eq_of_nil h
      rw [← hc] at hrest ⊢
      obtain rfl : cs = [] := hrest
      rfl
  | cons a as ih =>
    have ha : a ≠ '\n' := by
      rintro rfl
      exact hl.1 List.mem_cons_self
    have htext : (Line.mk (a :: as) closed).text = a :: (Line.mk as closed).text := rfl
    rw [htext] at h
    obtain ⟨mid, hone, hrest⟩ := h.split_cons
    obtain ⟨hc, hmid⟩ := Cursor.Over.eq_of_singleton hone
    obtain rfl : cs = a :: mid.rest := congrArg Cursor.rest hc
    rw [hmid] at hrest
    have hrec := ih hrest ⟨fun hmem => hl.1 (List.mem_cons_of_mem a hmem), hl.2⟩
    rw [skipLine, if_neg ha]
    exact hrec

theorem skipLine_over (o : Nat) (cs : List Char) :
    ∃ l : Line, Cursor.Over ⟨o, cs⟩ l.text (skipLine o cs) ∧ l.Legal (skipLine o cs).rest := by
  induction cs generalizing o with
  | nil => exact ⟨⟨[], false⟩, ⟨rfl, rfl⟩, by simp, fun _ => rfl⟩
  | cons c cs ih =>
    by_cases hc : c = '\n'
    · subst hc
      exact ⟨⟨[], true⟩, ⟨rfl, rfl⟩, by simp, fun hclosed => absurd hclosed (by simp)⟩
    · obtain ⟨⟨body, closed⟩, hover, hlegal⟩ := ih (o + c.utf8Size)
      have hone : Cursor.Over ⟨o, c :: cs⟩ [c] ⟨o + c.utf8Size, cs⟩ := ⟨rfl, rfl⟩
      rw [skipLine, if_neg hc]
      refine ⟨⟨c :: body, closed⟩, hone.trans hover, ?_, hlegal.2⟩
      intro hmem
      rcases List.mem_cons.1 hmem with heq | hmem
      · exact hc heq.symm
      · exact hlegal.1 hmem

namespace Cursor

theorem pastGap_of_endsGap {c : Cursor} (h : EndsGap c.rest) : c.pastGap = c := by
  obtain ⟨o, rest⟩ := c
  cases rest with
  | nil => rfl
  | cons a as =>
    obtain ⟨hblank, hcomment⟩ := h a rfl
    simp [pastGap, skipGap, hblank, hcomment]

theorem pastGap_blank {c d : Cursor} {a : Char} (h : c.Over [a] d) (ha : isBlank a = true) :
    c.pastGap = d.pastGap := by
  obtain ⟨hc, hd⟩ := h.eq_of_singleton
  rw [hc, hd]
  simp [pastGap, skipGap, ha]

theorem pastGap_comment {c d : Cursor} {l : Line} (h : c.Over (';' :: l.text) d)
    (hl : l.Legal d.rest) : c.pastGap = d.pastGap := by
  have hblank : isBlank ';' = false := by decide
  obtain ⟨mid, hone, hline⟩ := h.split_cons
  obtain ⟨hc, hmid⟩ := hone.eq_of_singleton
  have hskip : skipLine mid.offset mid.rest = d := skipLine_eq hline hl
  rw [← hskip, hc]
  simp only [pastGap, skipGap, hblank, Bool.false_eq_true, if_false, if_true]
  rw [skipGap_comment, hmid]
  rfl

theorem pastGap_eq {c d : Cursor} {g : Gap} (h : c.Over g.text d) (hg : g.Legal d.rest) :
    c.pastGap = d.pastGap := by
  induction g generalizing c with
  | nil => rw [Over.eq_of_nil h]
  | cons f g ih =>
    obtain ⟨mid, hfirst, hrest⟩ := Over.split h
    have hmid : mid.rest = Gap.text g ++ d.rest := hrest.1
    rw [← ih hrest hg.2]
    cases f with
    | blank a => exact pastGap_blank hfirst hg.1
    | comment l => exact pastGap_comment hfirst (hmid ▸ hg.1)

theorem pastGap_eq_of_endsGap {c d : Cursor} {g : Gap} (h : c.Over g.text d)
    (hg : g.Legal d.rest) (hd : EndsGap d.rest) : c.pastGap = d :=
  (pastGap_eq h hg).trans (pastGap_of_endsGap hd)

theorem endsGap_pastGap (c : Cursor) : EndsGap c.pastGap.rest :=
  skipGap_stops false c.offset c.rest

/-- Skipping a gap goes over a gap.  The skipping may start inside a comment, and
then it goes over the rest of its line first. -/
theorem skipGap_over (cs : List Char) (o : Nat) :
    (∃ g : Gap, Over ⟨o, cs⟩ g.text (skipGap false o cs) ∧ g.Legal (skipGap false o cs).rest) ∧
      ∃ (l : Line) (g : Gap), Over ⟨o, cs⟩ (l.text ++ g.text) (skipGap true o cs) ∧
        l.Legal (g.text ++ (skipGap true o cs).rest) ∧ g.Legal (skipGap true o cs).rest := by
  induction cs generalizing o with
  | nil =>
    exact ⟨⟨[], ⟨rfl, rfl⟩, trivial⟩, ⟨[], false⟩, [], ⟨rfl, rfl⟩, ⟨by simp, fun _ => rfl⟩, trivial⟩
  | cons c cs ih =>
    obtain ⟨⟨g, hg, hglegal⟩, l, h, hlh, hllegal, hhlegal⟩ := ih (o + c.utf8Size)
    have hone : Over ⟨o, c :: cs⟩ [c] ⟨o + c.utf8Size, cs⟩ := ⟨rfl, rfl⟩
    constructor
    · by_cases hblank : isBlank c = true
      · have hskip : skipGap false o (c :: cs) = skipGap false (o + c.utf8Size) cs := by
          simp [skipGap, hblank]
        rw [hskip]
        exact ⟨.blank c :: g, hone.trans hg, hblank, hglegal⟩
      · by_cases hcomment : c = ';'
        · have hskip : skipGap false o (c :: cs) = skipGap true (o + c.utf8Size) cs := by
            rw [skipGap, if_neg (by simp), if_neg hblank, if_pos hcomment]
          rw [hskip]
          refine ⟨.comment l :: h, ?_, hllegal, hhlegal⟩
          rw [hcomment] at hone hlh ⊢
          exact hone.trans hlh
        · have hskip : skipGap false o (c :: cs) = ⟨o, c :: cs⟩ := by
            simp [skipGap, hblank, hcomment]
          rw [hskip]
          exact ⟨[], ⟨rfl, rfl⟩, trivial⟩
    · by_cases hline : c = '\n'
      · have hskip : skipGap true o (c :: cs) = skipGap false (o + c.utf8Size) cs := by
          rw [skipGap, if_pos rfl, hline]
          rfl
        rw [hskip]
        refine ⟨⟨[], true⟩, g, ?_, ⟨by simp, fun hclosed => absurd hclosed (by simp)⟩, hglegal⟩
        rw [hline] at hone hg ⊢
        exact hone.trans hg
      · have hne : (c != '\n') = true := by simpa using hline
        have hskip : skipGap true o (c :: cs) = skipGap true (o + c.utf8Size) cs := by
          rw [skipGap, if_pos rfl, hne]
        rw [hskip]
        refine ⟨⟨c :: l.body, l.closed⟩, h, hone.trans hlh, ⟨?_, hllegal.2⟩, hhlegal⟩
        intro hmem
        rcases List.mem_cons.1 hmem with heq | hmem
        · exact hline heq.symm
        · exact hllegal.1 hmem

theorem pastGap_over (c : Cursor) :
    ∃ g : Gap, c.Over g.text c.pastGap ∧ g.Legal c.pastGap.rest :=
  (skipGap_over c.rest c.offset).1

end Cursor

/-! ## Markers -/

theorem markerToken_eq {k : QuoteKind} {c d : Cursor} (h : c.Over k.marker.toList d)
    (hk : k = .unquote → d.rest.head? ≠ some '@') : markerToken c = .matched k d := by
  obtain ⟨o, rest⟩ := c
  obtain ⟨o', rest'⟩ := d
  obtain ⟨hrest, hoffset⟩ := h
  obtain rfl : rest = k.marker.toList ++ rest' := hrest
  obtain rfl : o' = o + width k.marker.toList := hoffset
  cases k with
  | quote => rfl
  | quasiquote => rfl
  | unquoteSplicing => rfl
  | unquote =>
    cases rest' with
    | nil => rfl
    | cons a as =>
      have ha : a ≠ '@' := by simpa using hk rfl
      show markerToken ⟨o, ',' :: a :: as⟩ = _
      unfold markerToken
      split <;> simp_all [width, QuoteKind.marker]
      rfl

theorem markerToken_over {c next : Cursor} {k : QuoteKind} (h : markerToken c = .matched k next) :
    c.Over k.marker.toList next ∧ (k = .unquote → next.rest.head? ≠ some '@') := by
  unfold markerToken at h
  split at h
  · next cs hrest =>
    obtain ⟨rfl, rfl⟩ : QuoteKind.quote = k ∧ Cursor.mk (c.offset + 1) cs = next := by simpa using h
    exact ⟨⟨hrest, rfl⟩, by simp⟩
  · next cs hrest =>
    obtain ⟨rfl, rfl⟩ : QuoteKind.quasiquote = k ∧ Cursor.mk (c.offset + 1) cs = next := by
      simpa using h
    exact ⟨⟨hrest, rfl⟩, by simp⟩
  · next cs hrest =>
    obtain ⟨rfl, rfl⟩ : QuoteKind.unquoteSplicing = k ∧ Cursor.mk (c.offset + 2) cs = next := by
      simpa using h
    exact ⟨⟨hrest, rfl⟩, by simp⟩
  · next cs hsplice hrest =>
    obtain ⟨rfl, rfl⟩ : QuoteKind.unquote = k ∧ Cursor.mk (c.offset + 1) cs = next := by
      simpa using h
    refine ⟨⟨hrest, rfl⟩, fun _ hhead => ?_⟩
    cases cs with
    | nil => simp at hhead
    | cons a as =>
      obtain rfl : a = '@' := by simpa using hhead
      exact hsplice as rfl
  · simp at h

/-! ## Runs of characters -/

/-- A run that takes every piece for one character goes over a text of such
pieces. -/
theorem run_flatMap {α : Type} {run : List Char → Nat → List Char → Outcome String}
    {text : α → List Char} {char : α → Char} {legal : α → Prop}
    (hstep : ∀ u, legal u → ∀ done o cs,
      run done o (text u ++ cs) = run (char u :: done) (o + width (text u)) cs)
    {us : List α} (hus : ∀ u ∈ us, legal u) {done : List Char} {o : Nat} {cs : List Char}
    {d : Cursor} (h : Cursor.Over ⟨o, cs⟩ (us.flatMap text) d) :
    run done o cs = run ((us.map char).reverse ++ done) d.offset d.rest := by
  induction us generalizing done o cs with
  | nil =>
    rw [← Cursor.Over.eq_of_nil h]
    rfl
  | cons u us ih =>
    have hu := hus u List.mem_cons_self
    rw [List.flatMap_cons] at h
    obtain ⟨mid, hunit, hrest⟩ := h.split
    have hus' : ∀ v ∈ us, legal v := fun v hv => hus v (List.mem_cons_of_mem u hv)
    obtain rfl : cs = text u ++ mid.rest := hunit.1
    rw [hstep u hu, ← show mid.offset = o + width (text u) from hunit.2, ih hus' hrest]
    simp

/-! ## Atoms -/

theorem atomRun_plain {a : Char} (h : isReserved a = false) (done : List Char) (o : Nat)
    (cs : List Char) : atomRun done o (a :: cs) = atomRun (a :: done) (o + a.utf8Size) cs := by
  have ha : a ≠ '\\' := by
    rintro rfl
    exact absurd h (by decide)
  conv => lhs; unfold atomRun
  split
  · simp_all
  · simp_all
  · simp_all
  · next heq =>
    obtain ⟨rfl, rfl⟩ := heq
    rw [if_neg (by simp [h])]

theorem atomRun_escaped {a : Char} (h : isReserved a = true) (done : List Char) (o : Nat)
    (cs : List Char) :
    atomRun done o ('\\' :: a :: cs) = atomRun (a :: done) (o + 1 + a.utf8Size) cs := by
  rw [atomRun, if_pos h]

theorem atomRun_of_endsAtom {done : List Char} {o : Nat} {cs : List Char} (h : EndsAtom cs) :
    atomRun done o cs = closeAtom done ⟨o, cs⟩ := by
  cases cs with
  | nil => rfl
  | cons a as =>
    obtain ⟨hres, hslash⟩ := h a rfl
    unfold atomRun
    split
    · simp_all
    · simp_all
    · simp_all
    · next heq =>
      obtain ⟨rfl, rfl⟩ := heq
      rw [if_pos hres]

theorem atomRun_step (u : AtomUnit) (hu : u.Legal) (done : List Char) (o : Nat) (cs : List Char) :
    atomRun done o (u.text ++ cs) = atomRun (u.char :: done) (o + width u.text) cs := by
  cases u with
  | plain a => exact atomRun_plain hu done o cs
  | escaped a =>
    have hoffset : o + width ['\\', a] = o + 1 + a.utf8Size := by
      show o + (1 + (a.utf8Size + 0)) = _
      omega
    show atomRun done o ('\\' :: a :: cs) = atomRun (a :: done) (o + width ['\\', a]) cs
    rw [hoffset]
    exact atomRun_escaped hu done o cs

theorem atomToken_matched {us : List AtomUnit} (hne : us ≠ []) (hus : ∀ u ∈ us, u.Legal)
    {c d : Cursor} (h : c.Over (us.flatMap AtomUnit.text) d) (hd : EndsAtom d.rest) :
    atomToken c = .matched (String.ofList (us.map AtomUnit.char)) d := by
  have hdone : ((us.map AtomUnit.char).reverse ++ []).isEmpty = false := by simpa using hne
  rw [atomToken, run_flatMap atomRun_step hus h, atomRun_of_endsAtom hd, closeAtom, hdone]
  simp

/-- An atom goes no further than a backslash that escapes nothing. -/
theorem atomRun_of_lone {done : List Char} {c d : Cursor} (h : c.Over ['\\'] d)
    (hd : ∀ a ∈ d.rest.head?, isReserved a = false) :
    atomRun done c.offset c.rest = .failed ⟨d, .loneEscape⟩ := by
  obtain ⟨hc, hd'⟩ := h.eq_of_singleton
  rw [hc]
  obtain ⟨o, rest⟩ := d
  cases rest with
  | nil => exact congrArg (fun d => Outcome.failed ⟨d, .loneEscape⟩) hd'.symm
  | cons a as =>
    have ha : isReserved a = false := hd a rfl
    rw [atomRun, if_neg (by simp [ha])]
    exact congrArg (fun d => Outcome.failed ⟨d, .loneEscape⟩) hd'.symm

/-- An atom with a backslash behind it that escapes nothing. -/
theorem atomToken_failed {us : List AtomUnit} (hus : ∀ u ∈ us, u.Legal) {c d : Cursor}
    (h : c.Over (us.flatMap AtomUnit.text ++ ['\\']) d)
    (hd : ∀ a ∈ d.rest.head?, isReserved a = false) : atomToken c = .failed ⟨d, .loneEscape⟩ := by
  obtain ⟨mid, hrun, hslash⟩ := h.split
  rw [atomToken, run_flatMap atomRun_step hus hrun, atomRun_of_lone hslash hd]

theorem forall_mem_cons_legal {α : Type} {legal : α → Prop} {u : α} {us : List α} (hu : legal u)
    (hus : ∀ v ∈ us, legal v) : ∀ v ∈ u :: us, legal v := by
  intro v hv
  rcases List.mem_cons.1 hv with rfl | hv
  · exact hu
  · exact hus v hv

/-- What may stand behind the characters of an atom: what an atom ends before, or
a backslash that escapes nothing. -/
def StopsAtom (b : List Char) : Prop :=
  EndsAtom b ∨ ∃ b', b = '\\' :: b' ∧ ∀ a ∈ b'.head?, isReserved a = false

/-- Every text begins with characters of an atom, behind which the atom stops. -/
theorem atomUnits_split (cs : List Char) :
    ∃ (us : List AtomUnit) (b : List Char), (∀ u ∈ us, u.Legal) ∧
      cs = us.flatMap AtomUnit.text ++ b ∧ StopsAtom b := by
  suffices h : ∀ (done : List Char) (o : Nat), ∃ (us : List AtomUnit) (b : List Char),
      (∀ u ∈ us, u.Legal) ∧ cs = us.flatMap AtomUnit.text ++ b ∧ StopsAtom b from h [] 0
  -- The recursion of the reader takes one character of the atom at a time.
  intro done o
  fun_induction atomRun done o cs with
  | case1 done o => exact ⟨[], [], by simp, rfl, Or.inl endsAtom_nil⟩
  | case2 done o => exact ⟨[], ['\\'], by simp, rfl, Or.inr ⟨[], rfl, by simp⟩⟩
  | case3 done o a cs hres ih =>
    obtain ⟨us, b, hus, htext, hstop⟩ := ih
    exact ⟨.escaped a :: us, b, forall_mem_cons_legal hres hus, by rw [htext]; rfl, hstop⟩
  | case4 done o a cs hres =>
    exact ⟨[], '\\' :: a :: cs, by simp, rfl, Or.inr ⟨a :: cs, rfl, by simpa using hres⟩⟩
  | case5 done o a cs hlone hescape hres =>
    refine ⟨[], a :: cs, by simp, rfl, Or.inl ?_⟩
    intro b hb
    obtain rfl : a = b := by simpa using hb
    refine ⟨hres, ?_⟩
    rintro rfl
    cases cs with
    | nil => exact hlone rfl rfl
    | cons b bs => exact hescape b bs rfl rfl
  | case6 done o a cs _ _ hres ih =>
    obtain ⟨us, b, hus, htext, hstop⟩ := ih
    have hplain : (AtomUnit.plain a).Legal := by
      show isReserved a = false
      simpa using hres
    exact ⟨.plain a :: us, b, forall_mem_cons_legal hplain hus, by rw [htext]; rfl, hstop⟩

/-! ## Strings -/

theorem stringRun_plain {a : Char} (h : a ≠ '"' ∧ a ≠ '\\') (done : List Char) (o : Nat)
    (cs : List Char) : stringRun done o (a :: cs) = stringRun (a :: done) (o + a.utf8Size) cs := by
  conv => lhs; unfold stringRun
  split
  · simp_all
  · simp_all
  · simp_all
  · simp_all
  · next heq =>
    obtain ⟨rfl, rfl⟩ := heq
    rfl

theorem stringRun_escape {letter a : Char} (h : escaped? letter = some a) (done : List Char)
    (o : Nat) (cs : List Char) : stringRun done o ('\\' :: letter :: cs) =
      stringRun (a :: done) (o + 1 + letter.utf8Size) cs := by
  rw [stringRun, h]

theorem stringRun_step (u : StringUnit) (hu : u.Legal) (done : List Char) (o : Nat)
    (cs : List Char) :
    stringRun done o (u.text ++ cs) = stringRun (u.char :: done) (o + width u.text) cs := by
  cases u with
  | plain a => exact stringRun_plain hu done o cs
  | escape letter a =>
    have hoffset : o + width ['\\', letter] = o + 1 + letter.utf8Size := by
      show o + (1 + (letter.utf8Size + 0)) = _
      omega
    show stringRun done o ('\\' :: letter :: cs) =
      stringRun (a :: done) (o + width ['\\', letter]) cs
    rw [hoffset]
    exact stringRun_escape hu done o cs

theorem stringToken_eq {us : List StringUnit} (hus : ∀ u ∈ us, u.Legal) {c d : Cursor}
    (h : c.Over ('"' :: us.flatMap StringUnit.text) d) :
    stringToken c = stringRun ((us.map StringUnit.char).reverse ++ []) d.offset d.rest := by
  obtain ⟨mid, hopen, hrest⟩ := h.split_cons
  obtain ⟨hc, hmid⟩ := hopen.eq_of_singleton
  rw [← run_flatMap stringRun_step hus hrest, hc, hmid]
  rfl

theorem stringToken_matched {us : List StringUnit} (hus : ∀ u ∈ us, u.Legal) {c d : Cursor}
    (h : c.Over ('"' :: (us.flatMap StringUnit.text ++ ['"'])) d) :
    stringToken c = .matched (String.ofList (us.map StringUnit.char)) d := by
  rw [← List.cons_append] at h
  obtain ⟨mid, hopen, hclose⟩ := h.split
  obtain ⟨hmid, hd⟩ := hclose.eq_of_singleton
  rw [stringToken_eq hus hopen, hmid, hd]
  simp [stringRun]
  rfl

theorem stringToken_open {us : List StringUnit} (hus : ∀ u ∈ us, u.Legal) {c d : Cursor}
    (h : c.Over ('"' :: us.flatMap StringUnit.text) d) (hd : d.rest = []) :
    stringToken c = .failed ⟨d, .openString⟩ := by
  obtain ⟨o, rest⟩ := d
  obtain rfl : rest = [] := hd
  rw [stringToken_eq hus h]
  rfl

/-- A string goes no further than a backslash, at the end of the text or before a letter
that has no meaning there. -/
theorem stringRun_of_lone {done : List Char} {c d : Cursor} (h : c.Over ['\\'] d)
    (hd : ∀ a ∈ d.rest.head?, escaped? a = none) : stringRun done c.offset c.rest =
      .failed ⟨d, if d.rest = [] then .openString else .unknownEscape⟩ := by
  obtain ⟨hc, hd'⟩ := h.eq_of_singleton
  rw [hc]
  obtain ⟨o, rest⟩ := d
  cases rest with
  | nil => exact congrArg (fun d => Outcome.failed ⟨d, .openString⟩) hd'.symm
  | cons a as =>
    have ha : escaped? a = none := hd a rfl
    rw [stringRun, ha]
    exact congrArg (fun d => Outcome.failed ⟨d, .unknownEscape⟩) hd'.symm

theorem stringToken_backslash {us : List StringUnit} (hus : ∀ u ∈ us, u.Legal) {c d : Cursor}
    (h : c.Over ('"' :: (us.flatMap StringUnit.text ++ ['\\'])) d)
    (hd : ∀ a ∈ d.rest.head?, escaped? a = none) :
    stringToken c = .failed ⟨d, if d.rest = [] then .openString else .unknownEscape⟩ := by
  rw [← List.cons_append] at h
  obtain ⟨mid, hopen, hslash⟩ := h.split
  rw [stringToken_eq hus hopen, stringRun_of_lone hslash hd]

/-- What may stand behind the characters of a string: the delimiter, the end of
the text, or a backslash with no letter behind it that has a meaning. -/
def StopsString (b : List Char) : Prop :=
  (∃ b', b = '"' :: b') ∨ b = [] ∨ ∃ b', b = '\\' :: b' ∧ ∀ a ∈ b'.head?, escaped? a = none

/-- Every text begins with characters of a string, behind which the string
stops. -/
theorem stringUnits_split (cs : List Char) :
    ∃ (us : List StringUnit) (b : List Char), (∀ u ∈ us, u.Legal) ∧
      cs = us.flatMap StringUnit.text ++ b ∧ StopsString b := by
  suffices h : ∀ (done : List Char) (o : Nat), ∃ (us : List StringUnit) (b : List Char),
      (∀ u ∈ us, u.Legal) ∧ cs = us.flatMap StringUnit.text ++ b ∧ StopsString b from h [] 0
  intro done o
  fun_induction stringRun done o cs with
  | case1 done o => exact ⟨[], [], by simp, rfl, Or.inr (Or.inl rfl)⟩
  | case2 done o cs => exact ⟨[], '"' :: cs, by simp, rfl, Or.inl ⟨cs, rfl⟩⟩
  | case3 done o => exact ⟨[], ['\\'], by simp, rfl, Or.inr (Or.inr ⟨[], rfl, by simp⟩)⟩
  | case4 done o letter cs a hletter ih =>
    obtain ⟨us, b, hus, htext, hstop⟩ := ih
    exact ⟨.escape letter a :: us, b, forall_mem_cons_legal hletter hus, by rw [htext]; rfl, hstop⟩
  | case5 done o a cs hletter =>
    refine ⟨[], '\\' :: a :: cs, by simp, rfl, Or.inr (Or.inr ⟨a :: cs, rfl, ?_⟩)⟩
    simpa using hletter
  | case6 done o a cs hclose hlone hescape ih =>
    obtain ⟨us, b, hus, htext, hstop⟩ := ih
    have hplain : (StringUnit.plain a).Legal := by
      constructor
      · rintro rfl
        exact hclose rfl
      · rintro rfl
        cases cs with
        | nil => exact hlone rfl rfl
        | cons b bs => exact hescape b bs rfl rfl
    exact ⟨.plain a :: us, b, forall_mem_cons_legal hplain hus, by rw [htext]; rfl, hstop⟩

end Grammar
end LispSyntax
