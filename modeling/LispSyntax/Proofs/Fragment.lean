/-
Expressions that break off.

A fragment is what has been read of an expression when the reader stalls: the
lists and markers that are open, with all that they hold, and at the innermost
place the reason why the text behind is of no use there.  `Stalls` says what the
grammar demands of a fragment, as `Legal` does of a derivation.  It depends on the
first character behind the fragment alone, which is `Stalls.congr`: what comes
after that character cannot mend the text.
-/
import LispSyntax.Proofs.Dispatch

namespace LispSyntax
namespace Grammar

open Text

/-- How an expression breaks off. -/
inductive Fragment where
  /-- No expression starts. -/
  | missing
  /-- A list or a quotation starts, at a depth where none may. -/
  | cut
  /-- An atom with a backslash behind it that escapes nothing. -/
  | atom (units : List AtomUnit)
  /-- A string without its end, and whether a backslash comes last. -/
  | string (units : List StringUnit) (slash : Bool)
  /-- A list without its end. -/
  | unclosed (gap : Gap) (items : Derivations)
  /-- A list in which an expression breaks off. -/
  | list (gap : Gap) (items : Derivations) (inner : Fragment)
  /-- A quotation whose body breaks off. -/
  | quotation (kind : QuoteKind) (gap : Gap) (inner : Fragment)

namespace Fragment

def text : Fragment → List Char
  | .missing => []
  | .cut => []
  | .atom us => us.flatMap AtomUnit.text ++ ['\\']
  | .string us slash => '"' :: (us.flatMap StringUnit.text ++ if slash then ['\\'] else [])
  | .unclosed gap items => '(' :: (gap.text ++ items.text)
  | .list gap items inner => '(' :: (gap.text ++ (items.text ++ inner.text))
  | .quotation k gap inner => k.marker.toList ++ (gap.text ++ inner.text)

/-- What the grammar demands of a fragment in front of a text, where lists and
quotations nest no deeper than `levels`. -/
def Stalls (levels : Nat) (behind : List Char) : Fragment → Prop
  | .missing => ∀ c ∈ behind.head?, c = ')'
  | .cut =>
    levels = 0 ∧ (Form.starting behind = some .list ∨ Form.starting behind = some .quotation)
  | .atom us => (∀ u ∈ us, u.Legal) ∧ ∀ c ∈ behind.head?, isReserved c = false
  | .string us slash =>
    (∀ u ∈ us, u.Legal) ∧
      if slash then ∀ c ∈ behind.head?, escaped? c = none else behind = []
  | .unclosed gap items =>
    items.depth < levels ∧ gap.Legal (items.text ++ behind) ∧ items.Legal behind ∧ behind = []
  | .list gap items inner =>
    items.depth < levels ∧ gap.Legal (items.text ++ (inner.text ++ behind)) ∧
      items.Legal (inner.text ++ behind) ∧ inner ≠ .missing ∧ inner.Stalls (levels - 1) behind
  | .quotation k gap inner =>
    0 < levels ∧ (k = .unquote → (gap.text ++ (inner.text ++ behind)).head? ≠ some '@') ∧
      gap.Legal (inner.text ++ behind) ∧ inner.Stalls (levels - 1) behind

def cause (behind : List Char) : Fragment → Cause
  | .missing => .noExpression
  | .cut => .tooDeep
  | .atom _ => .loneEscape
  | .string _ _ => if behind = [] then .openString else .unknownEscape
  | .unclosed _ _ => .openList
  | .list _ _ inner => inner.cause behind
  | .quotation _ _ inner => inner.cause behind

/-- The reader declines: nothing is wrong but that an expression is missing. -/
def soft : Fragment → Bool
  | .missing => true
  | .quotation _ _ inner => inner.soft
  | _ => false

/-- The form of the expression, if something of it has been read. -/
def form? : Fragment → Option Form
  | .missing => none
  | .cut => none
  | .atom _ => some .atom
  | .string _ _ => some .string
  | .unclosed _ _ => some .list
  | .list _ _ _ => some .list
  | .quotation _ _ _ => some .quotation

theorem starting_text_append {f : Fragment} {levels : Nat} {b : List Char} {form : Form}
    (h : f.Stalls levels b) (hf : f.form? = some form) (b' : List Char) :
    Form.starting (f.text ++ b') = some form := by
  cases f with
  | missing => simp [form?] at hf
  | cut => simp [form?] at hf
  | atom us =>
    obtain rfl := Option.some.inj hf
    cases us with
    | nil => rfl
    | cons u us =>
      obtain ⟨c, cs, hcs, hc⟩ := u.text_eq_cons (h.1 u List.mem_cons_self)
      rw [text, List.flatMap_cons, hcs]
      exact Form.starting_eq_atom hc _
  | quotation k gap inner =>
    obtain rfl := Option.some.inj hf
    obtain ⟨c, cs, hcs, hc⟩ := QuoteKind.marker_cons k
    rw [text, hcs]
    exact Form.starting_eq_quotation hc _
  | _ => exact hf

theorem text_eq_nil {f : Fragment} (hf : f.form? = none) : f.text = [] := by
  cases f with
  | missing => rfl
  | cut => rfl
  | _ => simp [form?] at hf

theorem text_ne_nil {f : Fragment} {form : Form} (hf : f.form? = some form) : f.text ≠ [] := by
  cases f with
  | missing => simp [form?] at hf
  | cut => simp [form?] at hf
  | quotation k gap inner =>
    obtain ⟨c, cs, hcs, _⟩ := QuoteKind.marker_cons k
    simp [text, hcs]
  | _ => simp [text]

theorem endsGap_text_append {f : Fragment} {levels : Nat} {b : List Char}
    (h : f.Stalls levels b) : EndsGap (f.text ++ b) := by
  cases hf : f.form? with
  | some form => exact Form.endsGap_of_starting (starting_text_append h hf b)
  | none =>
    rw [text_eq_nil hf]
    cases f with
    | missing => exact endsGap_of_closes h
    | cut =>
      rcases h.2 with hlist | hquotation
      · exact Form.endsGap_of_starting hlist
      · exact Form.endsGap_of_starting hquotation
    | _ => simp [form?] at hf

/-- At the end of a text, only an expression that does not start is of no characters. -/
theorem eq_missing_of_text_eq_nil {f : Fragment} {levels : Nat} (h : f.Stalls levels [])
    (htext : f.text = []) : f = .missing := by
  cases hform : f.form? with
  | some form => exact absurd htext (text_ne_nil hform)
  | none =>
    cases f with
    | missing => rfl
    | cut => simp [Stalls, Form.starting] at h
    | _ => simp [form?] at hform

end Fragment

/-! ## What follows a fragment -/

theorem eq_nil_of_head?_eq {b b' : List Char} (hb : b.head? = b'.head?) (h : b = []) :
    b' = [] := by
  rw [h] at hb
  exact List.head?_eq_none_iff.1 hb.symm

theorem head?_append_of_head?_eq {b b' : List Char} (hb : b.head? = b'.head?) (cs : List Char) :
    (cs ++ b).head? = (cs ++ b').head? := by
  cases cs with
  | nil => exact hb
  | cons c cs => rfl

theorem Gap.Legal.congr_head? {g : Gap} {b b' : List Char} (h : g.Legal b)
    (hb : b.head? = b'.head?) : g.Legal b' :=
  Gap.Legal.congr h (eq_nil_of_head?_eq hb)

theorem Derivations.Legal.congr_head? {ds : Derivations} {b b' : List Char} (h : ds.Legal b)
    (hb : b.head? = b'.head?) : ds.Legal b' :=
  Derivations.Legal.congr h (fun hends => hends.congr hb) (eq_nil_of_head?_eq hb)

namespace Fragment

/-- Whether a fragment stalls depends on one character behind it. -/
theorem Stalls.congr {f : Fragment} {levels : Nat} {b b' : List Char} (h : f.Stalls levels b)
    (hb : b.head? = b'.head?) : f.Stalls levels b' := by
  induction f generalizing levels with
  | missing =>
    intro c hc
    exact h c (by rwa [hb])
  | cut =>
    refine ⟨h.1, ?_⟩
    rw [Form.starting_congr hb.symm]
    exact h.2
  | atom us =>
    refine ⟨h.1, fun c hc => h.2 c ?_⟩
    rwa [hb]
  | string us slash =>
    refine ⟨h.1, ?_⟩
    have hbehind := h.2
    cases slash with
    | false => exact eq_nil_of_head?_eq hb hbehind
    | true =>
      intro c hc
      exact hbehind c (by rwa [hb])
  | unclosed gap items =>
    obtain ⟨hdepth, hgap, hitems, hnil⟩ := h
    have hgap' := hgap.congr_head? (head?_append_of_head?_eq hb items.text)
    exact ⟨hdepth, hgap', hitems.congr_head? hb, eq_nil_of_head?_eq hb hnil⟩
  | list gap items inner ih =>
    obtain ⟨hdepth, hgap, hitems, hne, hinner⟩ := h
    have hhead := head?_append_of_head?_eq hb inner.text
    have hgap' := hgap.congr_head? (head?_append_of_head?_eq hhead items.text)
    exact ⟨hdepth, hgap', hitems.congr_head? hhead, hne, ih hinner⟩
  | quotation k gap inner ih =>
    obtain ⟨hlevels, hat, hgap, hinner⟩ := h
    have hhead := head?_append_of_head?_eq hb inner.text
    refine ⟨hlevels, fun hk => ?_, hgap.congr_head? hhead, ih hinner⟩
    rw [← head?_append_of_head?_eq hhead gap.text]
    exact hat hk

theorem cause_congr (f : Fragment) {b b' : List Char} (hb : b.head? = b'.head?) :
    f.cause b = f.cause b' := by
  induction f with
  | string us slash =>
    have hnil : b = [] ↔ b' = [] := ⟨eq_nil_of_head?_eq hb, eq_nil_of_head?_eq hb.symm⟩
    simp [cause, hnil]
  | list gap items inner ih => exact ih
  | quotation k gap inner ih => exact ih
  | _ => rfl

end Fragment
end Grammar
end LispSyntax
