import Counterbalance.Design.Window
import Counterbalance.Proofs.Lists

/-! Products of lists. The members are the choices of one element per list. Where each list is free
of repetition, or in ascending order, so is the product; partners have products that are
partners. -/

namespace Counterbalance

variable {α β : Type}

theorem mem_product {c : List α} {xss : List (List α)} :
    c ∈ product xss ↔ List.Forall₂ (fun x xs => x ∈ xs) c xss := by
  induction xss generalizing c with
  | nil => simp [product]
  | cons xs rest ih =>
    cases c with
    | nil => simp [product]
    | cons x c => rw [mem_product_cons, List.forall₂_cons, ih]

theorem product_eq_nil_iff {domains : List (List α)} : product domains = [] ↔ [] ∈ domains := by
  induction domains with
  | nil => simp [product]
  | cons xs rest ih =>
    cases xs with
    | nil => simp [product]
    | cons x xs => simp +contextual [product, ih]

theorem nodup_product {xss : List (List α)} (h : ∀ xs ∈ xss, xs.Nodup) : (product xss).Nodup := by
  induction xss with
  | nil => exact List.nodup_singleton []
  | cons xs rest ih =>
    obtain ⟨hxs, hrest⟩ := List.forall_mem_cons.mp h
    refine List.nodup_flatMap.mpr ⟨fun x _ => (ih hrest).map (List.cons_injective), ?_⟩
    refine hxs.imp fun {x y} hxy c hx hy => ?_
    obtain ⟨c₁, _, rfl⟩ := List.mem_map.mp hx
    obtain ⟨c₂, _, hc⟩ := List.mem_map.mp hy
    exact hxy (List.cons.inj hc).1.symm

/-- The product of ascending lists is in lexicographic order. -/
theorem pairwise_product {xss : List (List Nat)} (h : ∀ xs ∈ xss, xs.Pairwise (· < ·)) :
    (product xss).Pairwise (· < ·) := by
  induction xss with
  | nil => exact List.pairwise_singleton _ _
  | cons xs rest ih =>
    obtain ⟨hxs, hrest⟩ := List.forall_mem_cons.mp h
    rw [product, List.pairwise_flatMap]
    refine ⟨fun x _ => ?_, hxs.imp fun {x y} hxy c hc e he => ?_⟩
    · rw [List.pairwise_map]
      exact (ih hrest).imp fun hlt => List.cons_lt_cons_iff.mpr (.inr ⟨rfl, hlt⟩)
    · obtain ⟨c', _, rfl⟩ := List.mem_map.mp hc
      obtain ⟨e', _, rfl⟩ := List.mem_map.mp he
      exact List.cons_lt_cons_iff.mpr (.inl hxy)

theorem forall₂_product {R : α → β → Prop} {xss : List (List α)} {yss : List (List β)}
    (h : List.Forall₂ (List.Forall₂ R) xss yss) :
    List.Forall₂ (List.Forall₂ R) (product xss) (product yss) := by
  induction h with
  | nil => exact .cons .nil .nil
  | cons hxs _ ih =>
    exact List.rel_flatMap hxs fun x y hxy => List.rel_map (fun _ _ hc => .cons hxy hc) ih

end Counterbalance
