import Mathlib.Logic.Relation
import Mathlib.Tactic.ByContra

/-!
# Lib.Dominance

Dominance in a graph with an entry, and its natural loops.

`PathAvoiding r d a b` is a path from `a` to `b` on which `d` does not occur, and `d`
dominates `b` if no path from the entry to `b` avoids it.  On nodes that the entry
reaches dominance is a partial order, and the dominators of a node form a chain.  The
natural loop of a header holds the nodes from which one of its latches is reached
without the header; natural loops with different headers are nested or disjoint.
-/

namespace Noelle

open Relation

variable {α : Type} {r : α → α → Prop} {entry a b c d h : α}

/-! ## Paths -/

/-- A path from `a` to `b` on which `d` does not occur. -/
def PathAvoiding (r : α → α → Prop) (d a b : α) : Prop :=
  a ≠ d ∧ ReflTransGen (fun x y => r x y ∧ y ≠ d) a b

namespace PathAvoiding

theorem refl (ha : a ≠ d) : PathAvoiding r d a a := ⟨ha, .refl⟩

theorem tail (h : PathAvoiding r d a b) (hbc : r b c) (hc : c ≠ d) : PathAvoiding r d a c :=
  ⟨h.1, h.2.tail ⟨hbc, hc⟩⟩

theorem trans (h : PathAvoiding r d a b) (h' : PathAvoiding r d b c) : PathAvoiding r d a c :=
  ⟨h.1, h.2.trans h'.2⟩

theorem target_ne (h : PathAvoiding r d a b) : b ≠ d := by
  obtain ⟨ha, hpath⟩ := h
  induction hpath with
  | refl => exact ha
  | tail _ hbc _ => exact hbc.2

theorem reach (h : PathAvoiding r d a b) : ReflTransGen r a b :=
  ReflTransGen.mono (fun _ _ hxy => hxy.1) _ _ h.2

theorem mem_of_closed (h : PathAvoiding r d a b) {S : α → Prop} (ha : S a)
    (hclosed : ∀ x y, S x → r x y → y ≠ d → S y) : S b := by
  obtain ⟨-, hpath⟩ := h
  induction hpath with
  | refl => exact ha
  | tail _ hxy ih => exact hclosed _ _ ih hxy.1 hxy.2

theorem avoids_or_meets (h : PathAvoiding r a entry c) (b : α) :
    PathAvoiding r b entry c ∨ PathAvoiding r a entry b := by
  obtain ⟨ha, hpath⟩ := h
  induction hpath with
  | refl =>
      by_cases hb : entry = b
      · exact .inr (hb ▸ .refl ha)
      · exact .inl (.refl hb)
  | @tail y z hay hyz ih =>
      rcases ih with ih | ih
      · by_cases hz : z = b
        · exact .inr (hz ▸ ⟨ha, hay.tail hyz⟩)
        · exact .inl (ih.tail hyz.1 hz)
      · exact .inr ih

theorem avoids_or_leaves (h : PathAvoiding r d a c) (b : α) :
    PathAvoiding r b a c ∨ PathAvoiding r d b c := by
  obtain ⟨ha, hpath⟩ := h
  induction hpath using ReflTransGen.head_induction_on with
  | refl =>
      by_cases hb : c = b
      · exact .inr (hb ▸ .refl ha)
      · exact .inl (.refl hb)
  | @head x y hxy hyc ih =>
      rcases ih hxy.2 with ih | ih
      · by_cases hx : x = b
        · exact .inr (hx ▸ ⟨ha, hyc.head hxy⟩)
        · exact .inl ⟨hx, ih.2.head ⟨hxy.1, ih.1⟩⟩
      · exact .inr ih

theorem head (h : PathAvoiding r d b c) (hab : r a b) (ha : a ≠ d) : PathAvoiding r d a c :=
  ⟨ha, h.2.head ⟨hab, h.1⟩⟩

end PathAvoiding

theorem first_of_two (hreach : ReflTransGen r entry c) (hab : a ≠ b) :
    (PathAvoiding r a entry c ∧ PathAvoiding r b entry c) ∨ PathAvoiding r b entry a ∨
      PathAvoiding r a entry b := by
  induction hreach with
  | refl =>
      by_cases ha : entry = a
      · exact .inr (.inl (ha ▸ .refl (ha ▸ hab)))
      · by_cases hb : entry = b
        · exact .inr (.inr (hb ▸ .refl (hb ▸ hab.symm)))
        · exact .inl ⟨.refl ha, .refl hb⟩
  | @tail y z _ hyz ih =>
      rcases ih with ⟨iha, ihb⟩ | ih
      · by_cases ha : z = a
        · exact .inr (.inl (ha ▸ ihb.tail hyz (ha ▸ hab)))
        · by_cases hb : z = b
          · exact .inr (.inr (hb ▸ iha.tail hyz (hb ▸ hab.symm)))
          · exact .inl ⟨iha.tail hyz ha, ihb.tail hyz hb⟩
      · exact .inr ih

theorem last_of_two (hreach : ReflTransGen r entry c) (hab : a ≠ b) :
    (PathAvoiding r a entry c ∧ PathAvoiding r b entry c) ∨ PathAvoiding r b a c ∨
      PathAvoiding r a b c := by
  induction hreach with
  | refl =>
      by_cases ha : entry = a
      · exact .inr (.inl (ha ▸ .refl (ha ▸ hab)))
      · by_cases hb : entry = b
        · exact .inr (.inr (hb ▸ .refl (hb ▸ hab.symm)))
        · exact .inl ⟨.refl ha, .refl hb⟩
  | @tail y z _ hyz ih =>
      by_cases ha : z = a
      · exact .inr (.inl (ha ▸ .refl (ha ▸ hab)))
      · by_cases hb : z = b
        · exact .inr (.inr (hb ▸ .refl (hb ▸ hab.symm)))
        · rcases ih with ⟨iha, ihb⟩ | ih | ih
          · exact .inl ⟨iha.tail hyz ha, ihb.tail hyz hb⟩
          · exact .inr (.inl (ih.tail hyz hb))
          · exact .inr (.inr (ih.tail hyz ha))

theorem exists_last (hreach : ReflTransGen r entry c) (hc : ¬ PathAvoiding r d entry c) (hcd : c ≠ d) :
    ∃ y, r d y ∧ PathAvoiding r d y c := by
  induction hreach with
  | refl => exact absurd (.refl hcd) hc
  | @tail y z hy hyz ih =>
      by_cases hyd : y = d
      · exact ⟨z, hyd ▸ hyz, .refl hcd⟩
      · obtain ⟨x, hdx, hx⟩ := ih (fun hpath => hc (hpath.tail hyz hcd)) hyd
        exact ⟨x, hdx, hx.tail hyz hcd⟩

/-! ## Dominance -/

/-- No path from the entry to `b` avoids `d`. -/
def Dominates (r : α → α → Prop) (entry d b : α) : Prop := ¬ PathAvoiding r d entry b

namespace Dominates

theorem refl (b : α) : Dominates r entry b b := fun hpath => hpath.target_ne rfl

theorem entry_left (b : α) : Dominates r entry entry b := fun hpath => hpath.1 rfl

theorem trans (hab : Dominates r entry a b) (hbc : Dominates r entry b c) : Dominates r entry a c :=
  fun hpath => (hpath.avoids_or_meets b).elim hbc hab

theorem of_single (hsingle : ∀ x, r x b → x = a) (hb : b ≠ entry) : Dominates r entry a b := by
  rintro ⟨hentry, hpath⟩
  rcases hpath.cases_tail with heq | ⟨x, hpath, hxb, -⟩
  · exact hb heq
  · exact PathAvoiding.target_ne ⟨hentry, hpath⟩ (hsingle x hxb)

theorem antisymm (ha : ReflTransGen r entry a) (hab : Dominates r entry a b)
    (hba : Dominates r entry b a) : a = b := by
  by_contra hne
  rcases first_of_two ha hne with h | h | h
  · exact h.1.target_ne rfl
  · exact hba h
  · exact hab h

theorem total (hc : ReflTransGen r entry c) (hac : Dominates r entry a c)
    (hbc : Dominates r entry b c) : Dominates r entry a b ∨ Dominates r entry b a := by
  by_contra hnot
  obtain ⟨hab, hba⟩ := not_or.mp hnot
  have hpathb : PathAvoiding r a entry b := not_not.mp hab
  have hpatha : PathAvoiding r b entry a := not_not.mp hba
  have hne : a ≠ b := fun heq => hpathb.target_ne heq.symm
  rcases last_of_two hc hne with h | h | h
  · exact hac h.1
  · exact hbc (hpatha.trans h)
  · exact hac (hpathb.trans h)

theorem reach (hb : ReflTransGen r entry b) (hdb : Dominates r entry d b) :
    ReflTransGen r entry d := by
  by_contra hd
  refine hdb ?_
  have hentry : entry ≠ d := fun heq => hd (heq ▸ .refl)
  refine ⟨hentry, ?_⟩
  induction hb with
  | refl => exact .refl
  | @tail y z hy hyz ih =>
      have hz : z ≠ d := fun heq => hd (heq ▸ hy.tail hyz)
      by_cases hdy : Dominates r entry d y
      · exact (ih hdy).tail ⟨hyz, hz⟩
      · exact (not_not.mp hdy).2.tail ⟨hyz, hz⟩

end Dominates

/-! ## Natural loops -/

/-- `l` has an edge back to the header `h`, which dominates it. -/
structure IsLatch (r : α → α → Prop) (entry h l : α) : Prop where
  edge : r l h
  dominates : Dominates r entry h l
  reachable : ReflTransGen r entry l

/-- `b` is in the natural loop of the header `h`. -/
def NaturalLoop (r : α → α → Prop) (entry h b : α) : Prop :=
  ReflTransGen r entry b ∧ ∃ l, IsLatch r entry h l ∧ (b = h ∨ PathAvoiding r h b l)

namespace NaturalLoop

theorem header_mem (hl : IsLatch r entry h b) : NaturalLoop r entry h h :=
  ⟨hl.dominates.reach hl.reachable, b, hl, .inl rfl⟩

theorem header_mem' (hb : NaturalLoop r entry h b) : NaturalLoop r entry h h := by
  obtain ⟨_, l, hl, _⟩ := hb
  exact header_mem hl

theorem latch_mem (hl : IsLatch r entry h b) : NaturalLoop r entry h b := by
  refine ⟨hl.reachable, b, hl, ?_⟩
  by_cases hb : b = h
  · exact .inl hb
  · exact .inr (.refl hb)

theorem dominates (hb : NaturalLoop r entry h b) : Dominates r entry h b := by
  obtain ⟨_, l, hl, rfl | hpath⟩ := hb
  · exact .refl b
  · exact fun hentry => hl.dominates (hentry.trans hpath)

theorem of_edge (hc : NaturalLoop r entry h c) (hch : c ≠ h) (hbc : r b c)
    (hb : ReflTransGen r entry b) : NaturalLoop r entry h b := by
  obtain ⟨_, l, hl, hpath⟩ := hc
  refine ⟨hb, l, hl, ?_⟩
  by_cases hbh : b = h
  · exact .inl hbh
  · exact .inr ⟨hbh, .head ⟨hbc, hch⟩ (hpath.resolve_left hch).2⟩

theorem of_pathAvoiding (hc : NaturalLoop r entry h c) (hpath : PathAvoiding r h b c)
    (hb : ReflTransGen r entry b) :
    NaturalLoop r entry h b ∧
      ReflTransGen (fun x y => (r x y ∧ NaturalLoop r entry h y) ∧ y ≠ h) b c := by
  obtain ⟨hbh, hpath⟩ := hpath
  induction hpath using ReflTransGen.head_induction_on with
  | refl => exact ⟨hc, .refl⟩
  | @head x y hxy hyc ih =>
      obtain ⟨hy, hinside⟩ := ih (hb.tail hxy.1) hxy.2
      exact ⟨hy.of_edge hxy.2 hxy.1 hb, hinside.head ⟨⟨hxy.1, hy⟩, hxy.2⟩⟩

section

variable (hb : NaturalLoop r entry h b)

include hb

theorem reach_header :
    ReflTransGen (fun x y => r x y ∧ NaturalLoop r entry h y) b h := by
  obtain ⟨hreach, l, hl, rfl | hpath⟩ := hb
  · exact .refl
  · have hinside := ((latch_mem hl).of_pathAvoiding hpath hreach).2
    exact (ReflTransGen.mono (fun _ _ hxy => hxy.1) _ _ hinside).tail ⟨hl.edge, header_mem hl⟩

/-- The header reaches every other node of the loop inside the loop without coming back. -/
theorem exists_entered (hbh : b ≠ h) :
    ∃ y, r h y ∧ NaturalLoop r entry h y ∧ y ≠ h ∧
      ReflTransGen (fun x y => (r x y ∧ NaturalLoop r entry h y) ∧ y ≠ h) y b := by
  obtain ⟨y, hhy, hpath⟩ := exists_last hb.1 hb.dominates hbh
  obtain ⟨hymem, hinside⟩ := hb.of_pathAvoiding hpath (hb.header_mem'.1.tail hhy)
  exact ⟨y, hhy, hymem, hpath.1, hinside⟩

theorem reach_of_header :
    ReflTransGen (fun x y => r x y ∧ NaturalLoop r entry h y) h b := by
  by_cases hbh : b = h
  · exact hbh ▸ .refl
  · obtain ⟨y, hhy, hymem, -, hinside⟩ := hb.exists_entered hbh
    exact (ReflTransGen.mono (fun _ _ hxy => hxy.1) _ _ hinside).head ⟨hhy, hymem⟩

theorem exists_successor : ∃ c, r b c ∧ NaturalLoop r entry h c := by
  rcases hb.reach_header.cases_head with rfl | ⟨c, hbc, -⟩
  · obtain ⟨-, l, hl, -⟩ := hb
    rcases (latch_mem hl).reach_of_header.cases_head with rfl | ⟨c, hbc, -⟩
    · exact ⟨b, hl.edge, header_mem hl⟩
    · exact ⟨c, hbc⟩
  · exact ⟨c, hbc⟩

end

theorem subset_of_dominates {h₁ h₂ : α} (hdom : Dominates r entry h₁ h₂)
    (h₁b : NaturalLoop r entry h₁ b) (h₂b : NaturalLoop r entry h₂ b) {x : α}
    (hx : NaturalLoop r entry h₂ x) : NaturalLoop r entry h₁ x := by
  by_cases heq : h₁ = h₂
  · exact heq ▸ hx
  · -- the outer header is not in the inner loop
    have hout : ∀ y, NaturalLoop r entry h₂ y → y ≠ h₁ := fun y hy hyh =>
      heq (hdom.antisymm h₁b.header_mem'.1 (hyh ▸ hy.dominates))
    have havoid : ∀ {x y}, NaturalLoop r entry h₂ x →
        ReflTransGen (fun x y => r x y ∧ NaturalLoop r entry h₂ y) x y → PathAvoiding r h₁ x y :=
      fun hx hpath => ⟨hout _ hx, ReflTransGen.mono (fun _ y hxy => ⟨hxy.1, hout y hxy.2⟩) _ _ hpath⟩
    have hxb := (havoid hx hx.reach_header).trans (havoid h₂b.header_mem' h₂b.reach_of_header)
    obtain ⟨_, l, hl, hbl⟩ := h₁b
    exact ⟨hx.1, l, hl, .inr (hxb.trans (hbl.resolve_left (hout b h₂b)))⟩

/-- Two loops with a common node: the one with the dominating header holds the other. -/
theorem nested {h₁ h₂ : α} (h₁b : NaturalLoop r entry h₁ b) (h₂b : NaturalLoop r entry h₂ b) :
    (Dominates r entry h₁ h₂ ∧ ∀ x, NaturalLoop r entry h₂ x → NaturalLoop r entry h₁ x) ∨
      (Dominates r entry h₂ h₁ ∧ ∀ x, NaturalLoop r entry h₁ x → NaturalLoop r entry h₂ x) := by
  rcases h₁b.dominates.total h₁b.1 h₂b.dominates with hdom | hdom
  · exact .inl ⟨hdom, fun _ => subset_of_dominates hdom h₁b h₂b⟩
  · exact .inr ⟨hdom, fun _ => subset_of_dominates hdom h₂b h₁b⟩

end NaturalLoop

end Noelle
