/-
The snippet of an error is a window on the source.

An error has a place in bytes, and its snippet is counted in characters.  `CharsBefore`
says how many characters stand before an offset, without cutting the text.  An
`Excerpt` is a part of the source with what stands before and behind it, and `Around`
says which part is shown.  The snippet is the excerpt on one line, with a mark on each
side where something is left out.
-/
import LispSyntax.SyntaxError

namespace LispSyntax

namespace Text

/-! ## Characters before an offset -/

/-- There are `k` characters before the byte offset, or in the whole text if the offset is
no place between two characters. -/
def CharsBefore (source : List Char) (offset k : Nat) : Prop :=
  (∃ past, past <+: source ∧ width past = offset ∧ past.length = k) ∨
    (∀ past, past <+: source → width past ≠ offset) ∧ k = source.length

/-- The characters before an offset are those that a cut there takes away. -/
theorem charsBefore_iff (source : List Char) (offset k : Nat) :
    CharsBefore source offset k ↔ k = source.length - (dropBytes offset source).length := by
  by_cases hcut : ∃ past, past <+: source ∧ width past = offset
  · obtain ⟨past, ⟨rest, rfl⟩, rfl⟩ := hcut
    have hlength : (past ++ rest).length - (dropBytes (width past) (past ++ rest)).length =
        past.length := by
      rw [dropBytes_width_append, List.length_append]
      omega
    rw [hlength]
    constructor
    · rintro (⟨past', ⟨rest', hsource⟩, hwidth, rfl⟩ | ⟨hno, _⟩)
      · have hdrop := dropBytes_width_append past' rest'
        rw [hwidth, hsource, dropBytes_width_append] at hdrop
        rw [hdrop] at hsource
        rw [List.append_cancel_right hsource]
      · exact absurd rfl (hno past (List.prefix_append past rest))
    · rintro rfl
      exact Or.inl ⟨past, List.prefix_append past rest, rfl, rfl⟩
  · have hno : ∀ past, past <+: source → width past ≠ offset :=
      fun past hpast hwidth => hcut ⟨past, hpast, hwidth⟩
    rw [dropBytes_eq_nil hno]
    constructor
    · rintro (⟨past, hpast, hwidth, _⟩ | ⟨_, rfl⟩)
      · exact absurd hwidth (hno past hpast)
      · rfl
    · intro hk
      exact Or.inr ⟨hno, hk⟩

/-! ## Excerpts -/

/-- A part of a text, with what stands before it and behind it. -/
structure Excerpt (source : List Char) where
  before : List Char
  shown : List Char
  behind : List Char
  parts : before ++ (shown ++ behind) = source

namespace Excerpt

variable {source : List Char}

/-- The excerpt is the one for the character at `k`: it begins 20 characters before it, or
at the start of the source, and has 100 characters or all that are left. -/
structure Around (x : Excerpt source) (k : Nat) : Prop where
  lead : x.before.length + min k 20 = k
  size : x.shown.length ≤ 100
  full : x.shown.length < 100 → x.behind = []
  found : x.shown[min k 20]? = source[k]?

/-- The excerpt on one line: a newline is written out and a carriage return is left out. -/
def body (x : Excerpt source) : List Char :=
  (x.shown.filter (· ≠ '\r')).flatMap fun c => if c = '\n' then ['\\', 'n'] else [c]

/-- The excerpt on one line, with a mark where something is left out. -/
def line (x : Excerpt source) : List Char :=
  (if x.before = [] then [] else "[...]".toList) ++ x.body ++
    if x.behind = [] then [] else "[...]".toList

/-- The excerpt for the character at an index. -/
def window (source : List Char) (k : Nat) : Excerpt source where
  before := source.take (k - 20)
  shown := (source.drop (k - 20)).take 100
  behind := source.drop (k - 20 + 100)
  parts := by rw [← List.drop_drop, List.take_append_drop, List.take_append_drop]

theorem around_window {k : Nat} (h : k ≤ source.length) : (window source k).Around k where
  lead := by
    show (source.take (k - 20)).length + _ = _
    rw [List.length_take]
    omega
  size := by
    show ((source.drop (k - 20)).take 100).length ≤ 100
    exact List.length_take_le 100 _
  full := by
    show ((source.drop (k - 20)).take 100).length < 100 → source.drop (k - 20 + 100) = []
    intro hlt
    rw [List.length_take, List.length_drop] at hlt
    exact List.drop_eq_nil_of_le (by omega)
  found := by
    show ((source.drop (k - 20)).take 100)[min k 20]? = source[k]?
    rw [List.getElem?_take_of_lt (by omega), List.getElem?_drop]
    exact congrArg (source[·]?) (by omega)

/-- A snippet shows each character as an excerpt does. -/
theorem flatMap_showInSnippet (x : Excerpt source) : x.shown.flatMap showInSnippet = x.body := by
  rw [body]
  generalize x.shown = cs
  induction cs with
  | nil => rfl
  | cons c cs ih =>
    by_cases hc : c = '\r'
    · subst hc
      simpa [showInSnippet] using ih
    · by_cases hn : c = '\n'
      · subst hn
        simp [showInSnippet, ih]
      · simp [showInSnippet, hc, hn, ih]

/-- The line of an excerpt has no line breaks. -/
theorem not_mem_line (x : Excerpt source) : '\n' ∉ x.line ∧ '\r' ∉ x.line := by
  have hmark : ∀ cs : List Char, '\n' ∉ (if cs = [] then [] else "[...]".toList) ∧
      '\r' ∉ (if cs = [] then [] else "[...]".toList) := by
    intro cs
    split <;> decide
  have hbody : ∀ c ∈ x.body, c ≠ '\n' ∧ c ≠ '\r' := by
    intro c hc
    obtain ⟨d, hd, hc⟩ := List.mem_flatMap.1 hc
    have hreturn : d ≠ '\r' := by simpa using (List.mem_filter.1 hd).2
    by_cases hn : d = '\n'
    · have hparts : c = '\\' ∨ c = 'n' := by simpa [hn] using hc
      rcases hparts with rfl | rfl <;> decide
    · obtain rfl : c = d := by simpa [hn] using hc
      exact ⟨hn, hreturn⟩
  simp only [line, List.mem_append, not_or]
  exact ⟨⟨⟨(hmark _).1, fun h => (hbody _ h).1 rfl⟩, (hmark _).1⟩,
    ⟨(hmark _).2, fun h => (hbody _ h).2 rfl⟩, (hmark _).2⟩

/-- The snippet for the character at an index, which may be the end, is its excerpt on one
line. -/
theorem toList_snippet {k : Nat} (h : k ≤ source.length) :
    (snippet source k).toList = (window source k).line := by
  have hbefore : omission (0 < k - snippetLead) =
      if source.take (k - 20) = [] then [] else "[...]".toList := by
    have hempty : source.take (k - 20) = [] ↔ ¬0 < k - snippetLead := by
      rw [← List.length_eq_zero_iff, List.length_take]
      show _ ↔ ¬0 < k - 20
      omega
    by_cases hlead : 0 < k - snippetLead <;> simp [omission, hempty, hlead]
  have hbehind : omission (k - snippetLead + snippetSize < source.length) =
      if source.drop (k - 20 + 100) = [] then [] else "[...]".toList := by
    have hempty : source.drop (k - 20 + 100) = [] ↔
        ¬k - snippetLead + snippetSize < source.length := by
      rw [List.drop_eq_nil_iff]
      exact Nat.not_lt.symm
    by_cases hrest : k - snippetLead + snippetSize < source.length <;>
      simp [omission, hempty, hrest]
  rw [snippet, String.toList_ofList, hbefore, hbehind]
  show _ ++ (window source k).shown.flatMap showInSnippet ++ _ = _
  rw [flatMap_showInSnippet]
  rfl

end Excerpt
end Text

/-- The error in a text shows the text around its place: the character that was found there,
and a line of at most 100 characters of the text from 20 characters before it on, with marks
where the text goes on.  An offset that is no place between two characters counts as the
end. -/
theorem SyntaxError.against_excerpt (source : List Char) (e : SyntaxError) :
    ∃ k, (∀ j, Text.CharsBefore source e.position.offset j ↔ j = k) ∧
      (e.against source).found = source[k]? ∧
      ((e.against source).found = none ↔ k = source.length) ∧
      (∃ (x : Text.Excerpt source) (t : String), (e.against source).snippet = some t ∧
        x.Around k ∧ t.toList = x.line ∧ '\n' ∉ t.toList ∧ '\r' ∉ t.toList) ∧
      (e.against source).kind = e.kind ∧ (e.against source).expected = e.expected ∧
      (e.against source).position = e.position := by
  obtain ⟨front, hfront⟩ := Text.dropBytes_suffix e.position.offset source
  have hlength : source.length =
      front.length + (Text.dropBytes e.position.offset source).length := by
    rw [← List.length_append, hfront]
  have hk : source.length - (Text.dropBytes e.position.offset source).length = front.length := by
    omega
  have hfound : (e.against source).found = source[front.length]? := by
    show (Text.dropBytes e.position.offset source).head? = _
    rw [List.head?_eq_getElem?]
    conv => rhs; rw [← hfront]
    rw [List.getElem?_append_right (Nat.le_refl _), Nat.sub_self]
  have hsnippet : (e.against source).snippet = some (Text.snippet source front.length) := by
    show some (Text.snippet source _) = _
    rw [hk]
  have hle : front.length ≤ source.length := by omega
  refine ⟨front.length, ?_, hfound, ?_, ?_, rfl, rfl, rfl⟩
  · intro j
    rw [Text.charsBefore_iff, hk]
  · rw [hfound, List.getElem?_eq_none_iff]
    omega
  · have hline := Text.Excerpt.toList_snippet hle
    have hbreaks := (Text.Excerpt.window source front.length).not_mem_line
    rw [← hline] at hbreaks
    exact ⟨_, _, hsnippet, Text.Excerpt.around_window hle, hline, hbreaks⟩

end LispSyntax
