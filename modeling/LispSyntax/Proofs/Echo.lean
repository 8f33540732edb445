/-
What a session echoes is read back.

In the source mode every tree stands on a line of its own, with a comment behind it
that names its span.  The comment has no newline, so it ends with its line and swallows
no other tree.  In the JSON modes the document of the trees is printed, which is
decoded to them, and the compact document takes one line.  The state in force behind
some lines of input is `stateAfter`, and `run_append` says that the session goes on
from it.
-/
import LispSyntax.Proofs.Cut
import LispSyntax.Proofs.DocumentText
import LispSyntax.Proofs.PrintedProgram
import LispSyntax.Session

namespace LispSyntax

open Grammar Text

/-! ## The texts of spans -/

theorem Position.newline_not_mem_text (p : Position) : '\n' ∉ p.text.toList := by
  have htext : p.text = "line " ++ toString p.line ++ ", column " ++ toString p.column := rfl
  rw [htext]
  simp [Json.newline_not_mem_toDigits]

theorem Span.newline_not_mem_text (s : Span Position) : '\n' ∉ s.text.toList := by
  have htext : s.text = s.start.text ++ ".." ++ s.stop.text := rfl
  rw [htext]
  simp [Position.newline_not_mem_text]

/-! ## Trees on lines -/

namespace Grammar

section Atoms

variable {π : Type} {step : π → List Char → π}

mutual
/-- No atom that is read is empty. -/
theorem atomText?_ne_empty_node : (d : Derivation) → {b : List Char} → d.Legal b → (p : π) →
    (depth : Nat) → ∀ m ∈ (d.node step p).preorder depth, m.2.atomText? ≠ some ""
  | .atom us, b, h, p, depth => by
    intro m hm
    rw [List.mem_singleton.1 hm]
    simpa [Node.atomText?] using h.1
  | .string us, b, h, p, depth => by
    intro m hm
    rw [List.mem_singleton.1 hm]
    simp [Node.atomText?]
  | .list gap items, b, h, p, depth => by
    intro m hm
    rcases List.mem_cons.1 hm with rfl | hm
    · simp [Node.atomText?]
    · exact atomText?_ne_empty_nodes items h.2 _ (depth + 1) m hm
  | .quotation k gap body, b, h, p, depth => by
    intro m hm
    rcases List.mem_cons.1 hm with rfl | hm
    · simp [Node.atomText?]
    · have hparts : m = (depth + 1, .atom ⟨p, step p k.marker.toList⟩ k.name) ∨
          m ∈ (body.node step (step p (k.marker.toList ++ gap.text))).preorder (depth + 1) := by
        simpa [Node.preorderAll, Node.preorder] using hm
      rcases hparts with rfl | hm
      · cases k <;> simp [Node.atomText?, QuoteKind.name]
      · exact atomText?_ne_empty_node body h.2.2 _ (depth + 1) m hm

theorem atomText?_ne_empty_nodes : (ds : Derivations) → {b : List Char} → ds.Legal b → (p : π) →
    (depth : Nat) → ∀ m ∈ Node.preorderAll depth (ds.nodes step p), m.2.atomText? ≠ some ""
  | .nil, _, _, _, _ => fun m hm => absurd hm (by simp [Derivations.nodes, Node.preorderAll])
  | .cons head gap tail, b, h, p, depth => by
    intro m hm
    rcases List.mem_append.1 hm with hm | hm
    · exact atomText?_ne_empty_node head h.1 p depth m hm
    · exact atomText?_ne_empty_nodes tail h.2.2 _ depth m hm
end

end Atoms

/-- What stands behind a tree on its line: blanks and a comment that names its span. -/
def spanGap (s : Span Position) (closed : Bool) : Gap :=
  [.blank ' ', .blank ' ', .blank ' ', .blank ' ', .comment ⟨' ' :: s.text.toList, closed⟩]

theorem text_spanGap (s : Span Position) (closed : Bool) :
    (spanGap s closed).text =
      ("    ; ".toList ++ s.text.toList) ++ if closed then ['\n'] else [] := by
  simp [spanGap, Gap.text, Filler.text, Line.text]

theorem legal_spanGap (s : Span Position) {closed : Bool} {b : List Char}
    (h : closed = false → b = []) : (spanGap s closed).Legal b := by
  have hblank : isBlank ' ' = true := by decide
  have hline : '\n' ∉ ' ' :: s.text.toList := by
    simp [s.newline_not_mem_text]
  exact ⟨hblank, hblank, hblank, hblank, ⟨hline, h⟩, trivial⟩

theorem toList_treeLine (n : Node Position) : (Session.treeLine n).toList =
    n.write [] ++ ("    ; ".toList ++ n.span.text.toList) := by
  have hline : Session.treeLine n = n.print ++ "    ; " ++ n.span.text := rfl
  rw [hline, Node.print]
  simp

/-- Trees on lines, each with its span, are read as these trees. -/
theorem readWith_treeLines {o : Options} (hskip : o.skipShebang = false) {n : Node Position}
    {ns : List (Node Position)}
    (hempty : ∀ m ∈ Node.preorderAll 0 (n :: ns), m.2.atomText? ≠ some "")
    (hdepth : Node.nestingAll (n :: ns) ≤ o.maxDepth) :
    ∃ out, readWith o ("\n".intercalate ((n :: ns).map Session.treeLine)) = .ok out ∧
      out.map Node.eraseSpans = (n :: ns).map Node.eraseSpans := by
  -- a newline closes every comment but the last, which the end of the text closes
  obtain ⟨ds, htext, hds, hdsDepth, hnodes⟩ := @exists_printedItems _ ['\n']
    (fun n => "    ; ".toList ++ n.span.text.toList)
    (fun n => ⟨spanGap n.span true, by simp [spanGap], text_spanGap n.span true,
      fun b => legal_spanGap n.span (by simp)⟩)
    (fun n => ⟨spanGap n.span false, by rw [text_spanGap]; simp, legal_spanGap n.span fun _ => rfl⟩)
    n ns hempty
  have hpd : (ProgramDerivation.mk none [] ds).Legal o :=
    ⟨by simp [hskip], by simp, trivial, hds, hdsDepth ▸ hdepth⟩
  have hsource : ("\n".intercalate ((n :: ns).map Session.treeLine)).toList = ds.text := by
    rw [htext]
    refine (toList_intercalate_map Session.treeLine n ns).trans ?_
    simp only [toList_treeLine]
  refine ⟨_, readWith_of_derivation hpd hsource.symm, ?_⟩
  rw [map_eraseSpans_nodes]
  exact hnodes

end Grammar

/-! ## The echo of trees -/

namespace Session

/-- Trees that were read are echoed so that they can be read back from the printed
lines. -/
theorem echo_of_readWith {o : Options} {text : String} {ns : List (Node Position)}
    (hread : readWith o text = .ok ns) (hdepth : o.maxDepth = Node.maxNesting) :
    (ns ≠ [] → ∃ out, readWith ⟨256, false⟩ ("\n".intercalate (echo .source ns)) = .ok out ∧
      out.map Node.eraseSpans = ns.map Node.eraseSpans) ∧
    (width text.toList + 1 < Nat.pow 2 64 →
      (∃ l, echo .json ns = [l] ∧ '\n' ∉ l.toList ∧ Document.decodeText l = .ok ns) ∧
      Document.decodeText ("\n".intercalate (echo .prettyJson ns)) = .ok ns) := by
  obtain ⟨pd, hpd, htext, hnodes⟩ := nodes_of_readWith hread
  have hnesting : Node.nestingAll ns ≤ Node.maxNesting := by
    rw [hnodes, ProgramDerivation.nodes, nestingAll_nodes, ← hdepth]
    exact hpd.depth_le
  constructor
  · intro hne
    have hempty : ∀ m ∈ Node.preorderAll 0 ns, m.2.atomText? ≠ some "" := by
      rw [hnodes]
      exact atomText?_ne_empty_nodes pd.items hpd.items _ 0
    cases ns with
    | nil => exact absurd rfl hne
    | cons n ns => exact readWith_treeLines rfl hempty hnesting
  · intro hwidth
    have hsound := Document.sound_of_readWith hread hwidth
    have hdecode : ∀ l : Json.Layout, l.Spaced →
        Document.decodeText (Document.text l ns) = .ok ns := by
      intro l hl
      rw [Document.decodeText_text_of_sound hl hsound, if_pos hnesting]
    refine ⟨⟨Document.text .compact ns, rfl, ?_, hdecode _ Json.Layout.compact_spaced⟩, ?_⟩
    · have hwords : (Document.ofNodes ns).Words := Document.words_ofNodeList ns 0 hsound
      rw [Document.text, Json.text, String.toList_ofList]
      exact Json.newline_not_mem_write _ hwords 0 (by simp)
    · have hjoin : "\n".intercalate (echo .prettyJson ns) = Document.text .indented ns := by
        simp [echo]
      rw [hjoin]
      exact hdecode _ Json.Layout.indented_spaced

/-! ## Runs of a session -/

/-- The state in which a session goes on behind lines of input, unless one of them ends
it. -/
def stateAfter (s : Session) : List String → Option Session
  | [] => some s
  | line :: lines =>
    match (s.respond line).next with
    | some t => stateAfter t lines
    | none => none

/-- What a session prints for lines of input while it goes on. -/
def answers (s : Session) : List String → String
  | [] => ""
  | line :: lines =>
    prompt ++ unlines (s.respond line).lines ++
      match (s.respond line).next with
      | some t => answers t lines
      | none => ""

/-- Behind lines of input that do not end it, a session goes on from its state. -/
theorem run_append {s t : Session} {before : List String} (h : s.stateAfter before = some t)
    (after : List String) : s.run (before ++ after) = s.answers before ++ t.run after := by
  induction before generalizing s with
  | nil =>
    obtain rfl := Option.some.inj h
    simp [answers]
  | cons line lines ih =>
    rw [stateAfter] at h
    cases hreply : s.respond line with
    | mk out next =>
      cases next with
      | none => simp [hreply] at h
      | some u =>
        rw [hreply] at h
        have hrest := ih h
        simp only [List.cons_append, run, answers, hreply, hrest, String.append_assoc]

theorem respond_of_readWith {s : Session} {line text : String} {ns : List (Node Position)}
    (hline : Entry.ofLine line = .source text) (hread : readWith s.options text = .ok ns) :
    s.respond line = ⟨echo s.mode ns, some s⟩ := by
  simp only [respond, hline, hread]

/-- Wherever a line of input is read in a session, the lines printed for it are read back
as its trees: without their spans from source, and spans included from a document, which
takes a single line if it is compact.  A session reads a line without the white space at
its ends. -/
theorem transcript_echo {before : List String} {line text : String} {s : Session}
    {ns : List (Node Position)} (hstate : stateAfter {} before = some s)
    (hline : Entry.ofLine line = .source text) (hread : readWith s.options text = .ok ns)
    (after : List String) :
    transcript (before ++ line :: after) =
      unlines greeting ++ (answers {} before ++
        (prompt ++ unlines (s.respond line).lines ++ s.run after)) ∧
    (s.mode = .source → ns ≠ [] →
      ∃ out, readWith ⟨256, false⟩ ("\n".intercalate (s.respond line).lines) = .ok out ∧
        out.map Node.eraseSpans = ns.map Node.eraseSpans) ∧
    (width text.toList + 1 < Nat.pow 2 64 →
      (s.mode = .json → ∃ l, (s.respond line).lines = [l] ∧ '\n' ∉ l.toList ∧
        Document.decodeText l = .ok ns) ∧
      (s.mode = .prettyJson →
        Document.decodeText ("\n".intercalate (s.respond line).lines) = .ok ns)) := by
  have hreply := respond_of_readWith hline hread
  obtain ⟨hsource, hdocument⟩ := echo_of_readWith hread rfl
  refine ⟨?_, ?_, fun hwidth => ⟨?_, ?_⟩⟩
  · rw [transcript, run_append hstate, run, hreply]
  · intro hmode
    rw [hreply, hmode]
    exact hsource
  · intro hmode
    rw [hreply, hmode]
    exact (hdocument hwidth).1
  · intro hmode
    rw [hreply, hmode]
    exact (hdocument hwidth).2

/-- One line in the three modes, where it starts like a shebang line that is not
skipped. -/
theorem transcript_echo_modes : ∃ ns, readWith ⟨256, false⟩ "#!a '\"\\n\"" = .ok ns ∧
    (∃ out, readWith ⟨256, false⟩ ("\n".intercalate
        (respond ⟨.source, false⟩ " #!a '\"\\n\"").lines) = .ok out ∧
      out.map Node.eraseSpans = ns.map Node.eraseSpans) ∧
    (∃ l, (respond ⟨.json, false⟩ " #!a '\"\\n\"").lines = [l] ∧ '\n' ∉ l.toList ∧
      Document.decodeText l = .ok ns) ∧
    Document.decodeText ("\n".intercalate
      (respond ⟨.prettyJson, false⟩ " #!a '\"\\n\"").lines) = .ok ns := by
  have hprogram : program ⟨256, false⟩ "#!a '\"\\n\"".toList = .ok
      [.atom ⟨0, 3⟩ "#!a", .list ⟨4, 9⟩ [.atom ⟨4, 5⟩ "quote", .string ⟨5, 9⟩ "\n"]] := rfl
  have hread : readWith ⟨256, false⟩ "#!a '\"\\n\"" = .ok
      [.atom ⟨⟨0, 1, 1⟩, ⟨3, 1, 4⟩⟩ "#!a", .list ⟨⟨4, 1, 5⟩, ⟨9, 1, 10⟩⟩
        [.atom ⟨⟨4, 1, 5⟩, ⟨5, 1, 6⟩⟩ "quote", .string ⟨⟨5, 1, 6⟩, ⟨9, 1, 10⟩⟩ "\n"]] :=
    readWith_of_program hprogram (by decide +kernel)
  have hline : Entry.ofLine " #!a '\"\\n\"" = .source "#!a '\"\\n\"" := by decide +kernel
  have hwidth : width "#!a '\"\\n\"".toList + 1 < Nat.pow 2 64 := by decide
  have hsource : stateAfter {} [":shebang"] = some ⟨.source, false⟩ := by decide +kernel
  have hjson : stateAfter {} [":shebang", ":json"] = some ⟨.json, false⟩ := by decide +kernel
  have hpretty : stateAfter {} [":shebang", "", ":json", ":pretty"] =
      some ⟨.prettyJson, false⟩ := by decide +kernel
  refine ⟨_, hread, ?_, ?_, ?_⟩
  · exact (transcript_echo hsource hline hread []).2.1 rfl (by simp)
  · exact ((transcript_echo hjson hline hread [":quit"]).2.2 hwidth).1 rfl
  · exact ((transcript_echo hpretty hline hread []).2.2 hwidth).2 rfl

end Session
end LispSyntax
