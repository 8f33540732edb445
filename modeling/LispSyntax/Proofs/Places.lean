/-
The places in a tree.

A tree that was read has its places counted in bytes, and the locator looks them
up in the text.  For the tree of a derivation this comes to moving positions over
the text of the derivation from the start, so every place in the tree is the place
behind the text before it.
-/
import LispSyntax.Locator
import LispSyntax.Proofs.Derivation

namespace LispSyntax
namespace Grammar

open Text

section Map

variable {π ρ : Type} {step : π → List Char → π} {step' : ρ → List Char → ρ} {f : π → ρ}

mutual
/-- Places may be mapped before they are moved over a text or afterwards. -/
theorem map_node (h : ∀ p cs, f (step p cs) = step' (f p) cs) : (d : Derivation) → (p : π) →
    (d.node step p).map f = d.node step' (f p)
  | .atom us, p => by
    show Node.atom ⟨_, _⟩ _ = Node.atom ⟨_, _⟩ _
    rw [h]
  | .string us, p => by
    show Node.string ⟨_, _⟩ _ = Node.string ⟨_, _⟩ _
    rw [h]
  | .list gap items, p => by
    show Node.list ⟨_, _⟩ _ = Node.list ⟨_, _⟩ _
    rw [mapAll_nodes h items, h, h]
  | .quotation k gap body, p => by
    show Node.list ⟨_, _⟩ [Node.atom ⟨_, _⟩ _, _] = Node.list ⟨_, _⟩ [Node.atom ⟨_, _⟩ _, _]
    rw [map_node h body, h, h, h]

theorem mapAll_nodes (h : ∀ p cs, f (step p cs) = step' (f p) cs) : (ds : Derivations) → (p : π) →
    Node.mapAll f (ds.nodes step p) = ds.nodes step' (f p)
  | .nil, _ => rfl
  | .cons head gap tail, p => by
    show _ :: _ = _ :: _
    rw [map_node h head, mapAll_nodes h tail, h]
end

/-- The tree of a derivation without its places. -/
theorem eraseSpans_node (d : Derivation) (p : Position) :
    (d.node Position.after p).eraseSpans = d.node (fun _ _ => .start) .start :=
  map_node (fun _ _ => rfl) d p

theorem map_eraseSpans_nodes (ds : Derivations) (p : Position) :
    (ds.nodes Position.after p).map Node.eraseSpans = ds.nodes (fun _ _ => .start) .start := by
  have hmap : Node.mapAll (fun _ => Position.start) (ds.nodes Position.after p) =
      ds.nodes (fun _ _ => .start) .start := mapAll_nodes (fun _ _ => rfl) ds p
  rw [Node.mapAll_eq_map] at hmap
  exact hmap

end Map

variable {source : List Char}

/-- The place of a byte offset that whole characters lie before. -/
theorem place_seek_byBytes (l : Locator source) {past cs behind : List Char}
    (h : source = past ++ (cs ++ behind)) :
    (l.seek (byBytes (width past) cs)).place = (Position.start.after past).after cs := by
  have hsource : source = (past ++ cs) ++ behind := by rw [h, List.append_assoc]
  have hseek := l.seek_place hsource
  rw [width_append] at hseek
  rw [← Position.after_append]
  exact hseek

mutual
/-- Locating the tree of a derivation behind a text moves over that text first. -/
theorem locate_node : (d : Derivation) → (l : Locator source) → (past behind : List Char) →
    source = past ++ (d.text ++ behind) →
    (l.locate (d.node byBytes (width past))).1 = d.node Position.after (Position.start.after past)
  | .atom us, l, past, behind, h => by
    have hfirst := l.seek_place h
    have hlast := place_seek_byBytes (l.seek (width past)) h
    show Node.atom _ _ = Node.atom _ _
    rw [hfirst]
    exact congrArg (fun p => Node.atom ⟨_, p⟩ _) hlast
  | .string us, l, past, behind, h => by
    have hfirst := l.seek_place h
    have hlast := place_seek_byBytes (l.seek (width past)) h
    show Node.string _ _ = Node.string _ _
    rw [hfirst]
    exact congrArg (fun p => Node.string ⟨_, p⟩ _) hlast
  | .list gap items, l, past, behind, h => by
    have hfirst := fun m : Locator source => m.seek_place h
    have hopen : source = (past ++ '(' :: gap.text) ++ (items.text ++ ')' :: behind) := by
      simpa [Derivation.text] using h
    have hinner := locateAll_nodes items l _ _ hopen
    have hwidth : width (past ++ '(' :: gap.text) = byBytes (width past) ('(' :: gap.text) :=
      width_append ..
    rw [hwidth, Position.after_append] at hinner
    have hlast := fun m : Locator source => place_seek_byBytes m h
    show Node.list ⟨_, _⟩ _ = Node.list ⟨_, _⟩ _
    rw [hinner, hfirst]
    exact congrArg (fun p => Node.list ⟨_, p⟩ _) (hlast _)
  | .quotation k gap body, l, past, behind, h => by
    have hfirst := l.seek_place h
    have hmarker : source = past ++ (k.marker.toList ++ (gap.text ++ (body.text ++ behind))) := by
      simpa [Derivation.text] using h
    have hbody : source = (past ++ (k.marker.toList ++ gap.text)) ++ (body.text ++ behind) := by
      simpa [Derivation.text] using h
    have hinner := fun m : Locator source => locate_node body m _ _ hbody
    have hwidth : width (past ++ (k.marker.toList ++ gap.text)) =
        byBytes (width past) (k.marker.toList ++ gap.text) := width_append ..
    rw [hwidth, Position.after_append] at hinner
    have hsign := fun m : Locator source => place_seek_byBytes m hmarker
    have hagain := fun m : Locator source => m.seek_place h
    have hlast := fun m : Locator source => place_seek_byBytes m h
    show Node.list ⟨_, _⟩ [Node.atom ⟨_, _⟩ _, _] = Node.list ⟨_, _⟩ [Node.atom ⟨_, _⟩ _, _]
    rw [hfirst, hagain, hsign, hinner]
    exact congrArg (fun p => Node.list ⟨_, p⟩ _) (hlast _)

theorem locateAll_nodes : (ds : Derivations) → (l : Locator source) → (past behind : List Char) →
    source = past ++ (ds.text ++ behind) →
    (l.locateAll (ds.nodes byBytes (width past))).1 =
      ds.nodes Position.after (Position.start.after past)
  | .nil, _, _, _, _ => rfl
  | .cons head gap tail, l, past, behind, h => by
    have hhead : source = past ++ (head.text ++ (gap.text ++ (tail.text ++ behind))) := by
      simpa [Derivations.text] using h
    have htail : source = (past ++ (head.text ++ gap.text)) ++ (tail.text ++ behind) := by
      simpa [Derivations.text] using h
    have hfirst := locate_node head l _ _ hhead
    have hrest := fun m : Locator source => locateAll_nodes tail m _ _ htail
    have hwidth : width (past ++ (head.text ++ gap.text)) =
        byBytes (width past) (head.text ++ gap.text) := width_append ..
    rw [hwidth, Position.after_append] at hrest
    show _ :: _ = _ :: _
    rw [hfirst]
    exact congrArg (List.cons _) (hrest _)
end

end Grammar
end LispSyntax
