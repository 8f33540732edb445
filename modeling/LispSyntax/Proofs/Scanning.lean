/-
What stands in front of a place in a text.

A scanner goes over a text character by character and knows three things at each
place: what the next character belongs to, how many lists are open, and which token came
last.  It knows nothing of expressions and never fails, so it says what stands in front
of a place without the reader.  On a text that the grammar derives, it agrees with the
derivation: by `Scan.run_derivation` it comes to rest behind an expression with as many
lists open as in front, and it is at rest wherever the reader starts a token.
-/
import LispSyntax.Proofs.Behind

namespace LispSyntax
namespace Grammar

open Text

/-- What the next character belongs to. -/
inductive Mode where
  /-- A gap, unless it starts a token. -/
  | gap
  /-- A comment or the shebang line, which a newline ends. -/
  | comment
  /-- An atom, unless it is reserved. -/
  | atom
  /-- An atom, behind a backslash. -/
  | atomEscape
  /-- A string, and a quotation mark ends it. -/
  | string
  /-- A string, behind a backslash. -/
  | stringEscape
  /-- The marker that a comma begins if it is `@`. -/
  | comma
  deriving DecidableEq

/-- The kinds of token. -/
inductive Token where
  | atom
  | string
  | opening
  | closing
  | marker
  deriving DecidableEq

/-- What has been seen of a text. -/
structure Scan where
  mode : Mode
  /-- How many lists are open. -/
  opened : Nat
  /-- The last token, be it complete or not. -/
  last : Option Token
  deriving DecidableEq

namespace Scan

/-- The character `c` where no token goes on, with `n` lists open and `t` the last token. -/
def fresh (n : Nat) (t : Option Token) (c : Char) : Scan :=
  if isBlank c then ⟨.gap, n, t⟩
  else if c = ';' then ⟨.comment, n, t⟩
  else if c = '(' then ⟨.gap, n + 1, some .opening⟩
  else if c = ')' then ⟨.gap, n - 1, some .closing⟩
  else if c = '"' then ⟨.string, n, some .string⟩
  else if c = ',' then ⟨.comma, n, some .marker⟩
  else if c = '\x27' ∨ c = '\x60' then ⟨.gap, n, some .marker⟩
  else if c = '\\' then ⟨.atomEscape, n, some .atom⟩
  else ⟨.atom, n, some .atom⟩

def step : Scan → Char → Scan
  | ⟨.gap, n, t⟩, c => fresh n t c
  | ⟨.comment, n, t⟩, c => ⟨if c = '\n' then .gap else .comment, n, t⟩
  | ⟨.atom, n, t⟩, c =>
    if c = '\\' then ⟨.atomEscape, n, t⟩
    else if isReserved c then fresh n t c
    else ⟨.atom, n, t⟩
  | ⟨.atomEscape, n, t⟩, _ => ⟨.atom, n, t⟩
  | ⟨.string, n, t⟩, c =>
    ⟨if c = '"' then .gap else if c = '\\' then .stringEscape else .string, n, t⟩
  | ⟨.stringEscape, n, t⟩, _ => ⟨.string, n, t⟩
  | ⟨.comma, n, t⟩, c => if c = '@' then ⟨.gap, n, t⟩ else fresh n t c

def run (s : Scan) (cs : List Char) : Scan := cs.foldl step s

@[simp] theorem run_nil (s : Scan) : s.run [] = s := rfl

@[simp] theorem run_cons (s : Scan) (c : Char) (cs : List Char) :
    s.run (c :: cs) = (s.step c).run cs := rfl

@[simp] theorem run_append (s : Scan) (cs ds : List Char) :
    s.run (cs ++ ds) = (s.run cs).run ds := List.foldl_append

/-- The scanner in front of a text.  A shebang line, where those are skipped, is passed
over like a comment. -/
def atStart (o : Options) (source : List Char) : Scan :=
  ⟨if o.skipShebang = true ∧ ['#', '!'] <+: source then .comment else .gap, 0, none⟩

end Scan

/-- The scanner at the place between `past` and `rest`. -/
def scan (o : Options) (past rest : List Char) : Scan :=
  (Scan.atStart o (past ++ rest)).run past

namespace Scan

variable {s : Scan} {n : Nat} {t : Option Token} {c : Char} {b : List Char}

theorem fresh_blank (h : isBlank c = true) : fresh n t c = ⟨.gap, n, t⟩ := if_pos h

theorem fresh_plain (h : isReserved c = false) : fresh n t c = ⟨.atom, n, some .atom⟩ := by
  have hne : ∀ d, isReserved d = true → c ≠ d := by
    rintro d hd rfl
    simp [h] at hd
  have hblank := isBlank_eq_false_of_isReserved h
  simp [fresh, hblank, hne ';' (by decide), hne '(' (by decide), hne ')' (by decide),
    hne '"' (by decide), hne ',' (by decide), hne '\x27' (by decide), hne '\x60' (by decide),
    hne '\\' (by decide)]

/-! ## Escapes -/

theorem fresh_mode (n : Nat) (t : Option Token) (c : Char) :
    (fresh n t c).mode ≠ .stringEscape ∧ ((fresh n t c).mode = .atomEscape → c = '\\') := by
  unfold fresh
  grind

/-- Only behind a backslash does a character belong to an escape. -/
theorem eq_backslash_of_step
    (h : (s.step c).mode = .atomEscape ∨ (s.step c).mode = .stringEscape) : c = '\\' := by
  obtain ⟨m, n, t⟩ := s
  have hfresh := fresh_mode n t c
  cases m with
  | gap => exact h.elim hfresh.2 fun hstring => absurd hstring hfresh.1
  | _ => unfold step at h; grind

theorem getLast?_of_scan {o : Options} {past rest : List Char}
    (h : (scan o past rest).mode = .atomEscape ∨ (scan o past rest).mode = .stringEscape) :
    past.getLast? = some '\\' := by
  rw [scan] at h
  rcases List.eq_nil_or_concat past with rfl | ⟨before, c, rfl⟩
  · simp only [atStart, run_nil] at h
    split at h <;> simp at h
  · rw [List.concat_eq_append, run_append] at h
    obtain rfl := eq_backslash_of_step h
    simp

end Scan

/-! ## Rest -/

/-- No token goes on in front of the text, so that its first character is read afresh. -/
def Mode.Idle (behind : List Char) : Mode → Prop
  | .gap => True
  | .comment => behind = []
  | .atom => EndsAtom behind
  | .comma => behind.head? ≠ some '@'
  | _ => False

section Pieces

variable {m : Mode} {n : Nat} {t : Option Token} {b : List Char}

theorem Mode.Idle.step_eq {c : Char} (h : m.Idle (c :: b)) :
    Scan.step ⟨m, n, t⟩ c = Scan.fresh n t c := by
  cases m with
  | gap => rfl
  | comment => exact absurd h (by simp [Idle])
  | atom =>
    obtain ⟨hreserved, hslash⟩ := h c rfl
    rw [Scan.step, if_neg hslash, if_pos hreserved]
  | comma =>
    have hne : c ≠ '@' := fun hc => h (congrArg some hc)
    rw [Scan.step, if_neg hne]
  | _ => exact h.elim

namespace Scan

/-! ## Gaps -/

theorem run_comment {cs : List Char} (h : '\n' ∉ cs) :
    run ⟨.comment, n, t⟩ cs = ⟨.comment, n, t⟩ := by
  induction cs with
  | nil => rfl
  | cons c cs ih =>
    have hc : c ≠ '\n' := fun heq => h (heq ▸ List.mem_cons_self)
    rw [run_cons, step, if_neg hc]
    exact ih fun hmem => h (List.mem_cons_of_mem c hmem)

theorem run_line {l : Line} (hl : l.Legal b) :
    ∃ m, Mode.Idle b m ∧ run ⟨.comment, n, t⟩ l.text = ⟨m, n, t⟩ := by
  obtain ⟨body, closed⟩ := l
  have hbody : run ⟨.comment, n, t⟩ body = ⟨.comment, n, t⟩ := run_comment hl.1
  cases closed with
  | true => exact ⟨.gap, trivial, by simp [Line.text, hbody, step]⟩
  | false => exact ⟨.comment, hl.2 rfl, by simp [Line.text, hbody]⟩

theorem run_gap {g : Gap} (hg : g.Legal b) (hm : m.Idle (g.text ++ b)) :
    ∃ m', Mode.Idle b m' ∧ run ⟨m, n, t⟩ g.text = ⟨m', n, t⟩ := by
  -- the mode in front is general, since the gap may stand right behind an atom or a comma
  induction g generalizing m with
  | nil => exact ⟨m, hm, rfl⟩
  | cons f g ih =>
    cases f with
    | blank c =>
      have hstep : step ⟨m, n, t⟩ c = ⟨.gap, n, t⟩ :=
        hm.step_eq.trans (fresh_blank hg.1)
      obtain ⟨m', hm', hrun⟩ := ih hg.2 (m := .gap) trivial
      refine ⟨m', hm', ?_⟩
      show run (step ⟨m, n, t⟩ c) (Gap.text g) = _
      rw [hstep, hrun]
    | comment l =>
      have hstep : step ⟨m, n, t⟩ ';' = ⟨.comment, n, t⟩ := hm.step_eq
      obtain ⟨m₁, hm₁, hline⟩ := run_line (n := n) (t := t) hg.1
      obtain ⟨m', hm', hrun⟩ := ih hg.2 hm₁
      refine ⟨m', hm', ?_⟩
      show run (step ⟨m, n, t⟩ ';') (l.text ++ Gap.text g) = _
      rw [hstep, run_append, hline, hrun]

/-! ## Tokens -/

theorem run_atomUnits {us : List AtomUnit} (hus : ∀ u ∈ us, u.Legal) :
    run ⟨.atom, n, t⟩ (us.flatMap AtomUnit.text) = ⟨.atom, n, t⟩ := by
  induction us with
  | nil => rfl
  | cons u us ih =>
    have hu : run ⟨.atom, n, t⟩ u.text = ⟨.atom, n, t⟩ := by
      cases u with
      | plain c =>
        have hplain : isReserved c = false := hus _ List.mem_cons_self
        have hslash : c ≠ '\\' := by
          rintro rfl
          exact absurd hplain (by decide)
        simp [AtomUnit.text, step, hslash, hplain]
      | escaped c => rfl
    rw [List.flatMap_cons, run_append, hu]
    exact ih fun u hu => hus u (List.mem_cons_of_mem _ hu)

/-- The first character of an atom makes it the last token. -/
theorem run_atom {us : List AtomUnit} (hne : us ≠ []) (hus : ∀ u ∈ us, u.Legal)
    (hm : m.Idle (us.flatMap AtomUnit.text ++ b)) :
    run ⟨m, n, t⟩ (us.flatMap AtomUnit.text) = ⟨.atom, n, some .atom⟩ := by
  cases us with
  | nil => exact absurd rfl hne
  | cons u us =>
    have hu : run ⟨m, n, t⟩ u.text = ⟨.atom, n, some .atom⟩ := by
      cases u with
      | plain c => exact hm.step_eq.trans (fresh_plain (hus _ List.mem_cons_self))
      | escaped c =>
        have hslash : step ⟨m, n, t⟩ '\\' = ⟨.atomEscape, n, some .atom⟩ := hm.step_eq
        rw [AtomUnit.text, run_cons, hslash]
        rfl
    rw [List.flatMap_cons, run_append, hu]
    exact run_atomUnits fun u hu => hus u (List.mem_cons_of_mem _ hu)

theorem run_stringUnits {us : List StringUnit} (hus : ∀ u ∈ us, u.Legal) :
    run ⟨.string, n, t⟩ (us.flatMap StringUnit.text) = ⟨.string, n, t⟩ := by
  induction us with
  | nil => rfl
  | cons u us ih =>
    have hu : run ⟨.string, n, t⟩ u.text = ⟨.string, n, t⟩ := by
      cases u with
      | plain c =>
        obtain ⟨hquote, hslash⟩ : c ≠ '"' ∧ c ≠ '\\' := hus _ List.mem_cons_self
        simp [StringUnit.text, step, hquote, hslash]
      | escape letter c => rfl
    rw [List.flatMap_cons, run_append, hu]
    exact ih fun u hu => hus u (List.mem_cons_of_mem _ hu)

theorem run_openString {us : List StringUnit} (hus : ∀ u ∈ us, u.Legal) (hm : m.Idle ('"' :: b)) :
    run ⟨m, n, t⟩ ('"' :: us.flatMap StringUnit.text) = ⟨.string, n, some .string⟩ := by
  have hquote : step ⟨m, n, t⟩ '"' = ⟨.string, n, some .string⟩ := hm.step_eq
  rw [run_cons, hquote, run_stringUnits hus]

theorem run_marker (k : QuoteKind) (hm : m.Idle (k.marker.toList ++ b))
    (hat : k = .unquote → b.head? ≠ some '@') :
    ∃ m', Mode.Idle b m' ∧ run ⟨m, n, t⟩ k.marker.toList = ⟨m', n, some .marker⟩ := by
  cases k with
  | quote => exact ⟨.gap, trivial, hm.step_eq⟩
  | quasiquote => exact ⟨.gap, trivial, hm.step_eq⟩
  | unquote => exact ⟨.comma, hat rfl, hm.step_eq⟩
  | unquoteSplicing =>
    have hcomma : step ⟨m, n, t⟩ ',' = ⟨.comma, n, some .marker⟩ := hm.step_eq
    refine ⟨.gap, trivial, ?_⟩
    show run (step ⟨m, n, t⟩ ',') ['@'] = _
    rw [hcomma]
    rfl

/-! ## Expressions -/

theorem run_open {gap : Gap} (hgap : gap.Legal b) (hm : m.Idle ('(' :: (gap.text ++ b))) :
    ∃ m', Mode.Idle b m' ∧
      run ⟨m, n, t⟩ ('(' :: gap.text) = ⟨m', n + 1, some .opening⟩ := by
  have hparen : step ⟨m, n, t⟩ '(' = ⟨.gap, n + 1, some .opening⟩ := hm.step_eq
  obtain ⟨m', hm', hrun⟩ := run_gap (m := .gap) (n := n + 1) (t := some .opening) hgap trivial
  exact ⟨m', hm', by rw [run_cons, hparen, hrun]⟩

mutual
/-- Behind an expression the scanner is at rest, with as many lists open as in front. -/
theorem run_derivation : (d : Derivation) → {m : Mode} → {n : Nat} → {t : Option Token} →
    {b : List Char} → d.Legal b → m.Idle (d.text ++ b) →
    ∃ m' t', Mode.Idle b m' ∧ t' ≠ .marker ∧ run ⟨m, n, t⟩ d.text = ⟨m', n, some t'⟩
  | .atom us, m, n, t, b, hd, hm => ⟨.atom, .atom, hd.2.2, by decide, run_atom hd.1 hd.2.1 hm⟩
  | .string us, m, n, t, b, hd, hm => by
    have hopen : run ⟨m, n, t⟩ ('"' :: us.flatMap StringUnit.text) = _ := run_openString hd hm
    refine ⟨.gap, .string, trivial, by decide, ?_⟩
    show run ⟨m, n, t⟩ (('"' :: us.flatMap StringUnit.text) ++ ['"']) = _
    rw [run_append, hopen]
    rfl
  | .list gap items, m, n, t, b, ⟨hgap, hitems⟩, hm => by
    have hm' : m.Idle ('(' :: (gap.text ++ (items.text ++ ')' :: b))) := by
      simpa [Derivation.text] using hm
    obtain ⟨m₁, hm₁, hopen⟩ := run_open (n := n) (t := t) hgap hm'
    obtain ⟨m₂, t₂, hm₂, _, hrun⟩ :=
      run_derivations items (n := n + 1) (t := some .opening) hitems hm₁ (by decide)
    have hclose : step ⟨m₂, n + 1, t₂⟩ ')' = ⟨.gap, n, some .closing⟩ := hm₂.step_eq
    refine ⟨.gap, .closing, trivial, by decide, ?_⟩
    show run ⟨m, n, t⟩ ('(' :: (gap.text ++ (items.text ++ [')']))) = _
    rw [← List.cons_append, run_append, hopen, run_append, hrun, run_cons, hclose]
    rfl
  | .quotation k gap body, m, n, t, b, ⟨hat, hgap, hbody⟩, hm => by
    have hm' : m.Idle (k.marker.toList ++ (gap.text ++ (body.text ++ b))) := by
      simpa [Derivation.text] using hm
    obtain ⟨m₁, hm₁, hmarker⟩ := run_marker (n := n) (t := t) k hm' hat
    obtain ⟨m₂, hm₂, hrun⟩ := run_gap (n := n) (t := some .marker) hgap hm₁
    obtain ⟨m₃, t₃, hm₃, ht₃, hlast⟩ := run_derivation body (n := n) (t := some .marker) hbody hm₂
    refine ⟨m₃, t₃, hm₃, ht₃, ?_⟩
    rw [Derivation.text, run_append, hmarker, run_append, hrun, hlast]

theorem run_derivations : (ds : Derivations) → {m : Mode} → {n : Nat} → {t : Option Token} →
    {b : List Char} → ds.Legal b → m.Idle (ds.text ++ b) → t ≠ some .marker →
    ∃ m' t', Mode.Idle b m' ∧ t' ≠ some .marker ∧ run ⟨m, n, t⟩ ds.text = ⟨m', n, t'⟩
  | .nil, m, n, t, b, _, hm, ht => ⟨m, t, hm, ht, rfl⟩
  | .cons head gap tail, m, n, t, b, ⟨hhead, hgap, htail⟩, hm, _ => by
    have hm' : m.Idle (head.text ++ (gap.text ++ (tail.text ++ b))) := by
      simpa [Derivations.text] using hm
    obtain ⟨m₁, t₁, hm₁, ht₁, hfirst⟩ := run_derivation head (n := n) (t := t) hhead hm'
    obtain ⟨m₂, hm₂, hrun⟩ := run_gap (n := n) (t := some t₁) hgap hm₁
    obtain ⟨m₃, t₃, hm₃, ht₃, hrest⟩ :=
      run_derivations tail (n := n) (t := some t₁) htail hm₂ (by simpa using ht₁)
    refine ⟨m₃, t₃, hm₃, ht₃, ?_⟩
    rw [Derivations.text, run_append, hfirst, run_append, hrun, hrest]
end

/-- Inside a list that is open, behind expressions. -/
theorem run_openItems {gap : Gap} {items : Derivations} (hgap : gap.Legal (items.text ++ b))
    (hitems : items.Legal b) (hm : m.Idle ('(' :: (gap.text ++ (items.text ++ b)))) :
    ∃ m' t', Mode.Idle b m' ∧ t' ≠ some .marker ∧
      run ⟨m, n, t⟩ ('(' :: (gap.text ++ items.text)) = ⟨m', n + 1, t'⟩ := by
  obtain ⟨m₁, hm₁, hopen⟩ := run_open (n := n) (t := t) hgap hm
  obtain ⟨m₂, t₂, hm₂, ht₂, hrun⟩ :=
    run_derivations items (n := n + 1) (t := some .opening) hitems hm₁ (by decide)
  exact ⟨m₂, t₂, hm₂, ht₂, by rw [← List.cons_append, run_append, hopen, hrun]⟩

/-! ## The lead of a program -/

/-- Over a shebang line and the gap behind it. -/
theorem run_lead {o : Options} {source : List Char} {shebang : Option Line} {gap : Gap}
    (hsome : shebang.isSome ↔ o.skipShebang = true ∧ ['#', '!'] <+: source)
    (hline : ∀ l ∈ shebang, l.Legal (gap.text ++ b)) (hgap : gap.Legal b) :
    ∃ m, Mode.Idle b m ∧ (atStart o source).run
      (ProgramDerivation.shebangText shebang ++ gap.text) = ⟨m, 0, none⟩ := by
  cases shebang with
  | none =>
    have hstart : atStart o source = ⟨.gap, 0, none⟩ := by
      rw [atStart, if_neg fun hskip => absurd (hsome.2 hskip) (by simp)]
    rw [hstart]
    exact run_gap hgap trivial
  | some l =>
    have hstart : atStart o source = ⟨.comment, 0, none⟩ := by
      rw [atStart, if_pos (hsome.1 rfl)]
    have hmark : run ⟨.comment, 0, none⟩ ['#', '!'] = ⟨.comment, 0, none⟩ := rfl
    obtain ⟨m₁, hm₁, hrun⟩ := run_line (n := 0) (t := none) (hline l rfl)
    obtain ⟨m, hm, hlead⟩ := run_gap (n := 0) (t := none) hgap hm₁
    refine ⟨m, hm, ?_⟩
    show (atStart o source).run ((['#', '!'] ++ l.text) ++ gap.text) = _
    rw [hstart, run_append, run_append, hmark, hrun, hlead]

end Scan

end Pieces

end Grammar
end LispSyntax
