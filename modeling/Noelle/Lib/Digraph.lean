import Mathlib.Order.WellFoundedSet

/-!
# Lib.Digraph

Directed graphs as relations: strong connectivity, quotient graphs and the
coarsenings whose quotient is acyclic.

A graph is a relation `r : α → α → Prop`.  A cycle through two or more nodes is
two distinct nodes that reach each other, so `Acyclic r` says that strong
connectivity is equality; self-loops are allowed.  A partition of the nodes is
an equivalence `e`, and the quotient graph has no cycle through two or more
classes when every two nodes that reach each other along `r` and `e` are already
related by `e` (`AcyclicModulo`).  `collapse r e` is the least such coarsening
above `e`; that it depends on the union of `r` and `e` only is what makes
repeated merging order independent (`collapse_sup_collapse`).
-/

namespace Noelle

open Relation

variable {α σ : Type}

/-! ## Strong connectivity -/

/-- Two nodes that reach each other. -/
def StronglyConnected (r : α → α → Prop) (a b : α) : Prop :=
  ReflTransGen r a b ∧ ReflTransGen r b a

namespace StronglyConnected

variable {r : α → α → Prop} {a b c : α}

theorem refl (a : α) : StronglyConnected r a a := ⟨.refl, .refl⟩

theorem symm (h : StronglyConnected r a b) : StronglyConnected r b a := ⟨h.2, h.1⟩

theorem trans (h₁ : StronglyConnected r a b) (h₂ : StronglyConnected r b c) :
    StronglyConnected r a c :=
  ⟨h₁.1.trans h₂.1, h₂.2.trans h₁.2⟩

end StronglyConnected

/-- No cycle goes through two or more nodes. -/
def Acyclic (r : α → α → Prop) : Prop := ∀ a b, StronglyConnected r a b → a = b

variable {r : α → α → Prop}

theorem Acyclic.mono {s : α → α → Prop} (h : Acyclic s) (hrs : ∀ a b, r a b → s a b) :
    Acyclic r := fun a b hab =>
  h a b ⟨ReflTransGen.mono hrs _ _ hab.1, ReflTransGen.mono hrs _ _ hab.2⟩

/-- In an acyclic graph without self-loops no path leads back to its start. -/
theorem Acyclic.not_transGen_self (h : Acyclic r) (hirr : ∀ a, ¬ r a a)
    (a : α) : ¬ TransGen r a a := by
  intro hp
  obtain ⟨b, hab, hba⟩ := TransGen.head'_iff.mp hp
  have heq : a = b := h a b ⟨.single hab, hba⟩
  subst heq
  exact hirr a hab

/-- A graph whose edges all lead down has no cycle. -/
theorem Acyclic.of_lt (rank : α → Nat) (h : ∀ a b, r a b → rank b < rank a) :
    Acyclic r := by
  have hle : ∀ {a b}, ReflTransGen r a b → a = b ∨ rank b < rank a := by
    intro a b hab
    induction hab with
    | refl => exact .inl rfl
    | tail _ hbc ih =>
        rcases ih with rfl | hlt
        · exact .inr (h _ _ hbc)
        · exact .inr ((h _ _ hbc).trans hlt)
  rintro a b ⟨hab, hba⟩
  rcases hle hab with heq | hlt
  · exact heq
  · exact (hle hba).elim Eq.symm fun hgt => absurd hgt hlt.asymm

theorem Acyclic.swap (h : Acyclic r) : Acyclic (Function.swap r) :=
  fun a b hab => h a b ⟨reflTransGen_swap.mp hab.2, reflTransGen_swap.mp hab.1⟩

/-- Among finitely many nodes of an acyclic graph one can go up to other nodes only finitely
often. -/
theorem Acyclic.wellFounded_above (h : Acyclic r) {nodes : List α} {P : α → Prop}
    (hfinite : ∀ a, P a → a ∈ nodes) :
    WellFounded fun a b : { a // P a } => TransGen r a.1 b.1 ∧ a.1 ≠ b.1 := by
  have hfinite : Finite { a // P a } := (List.finite_toSet nodes).subset hfinite
  have hirrefl : Std.Irrefl fun a b : { a // P a } => TransGen r a.1 b.1 ∧ a.1 ≠ b.1 :=
    ⟨fun _ ha => ha.2 rfl⟩
  have htrans : IsTrans { a // P a } fun a b => TransGen r a.1 b.1 ∧ a.1 ≠ b.1 := by
    refine ⟨fun a b c hab hbc => ⟨hab.1.trans hbc.1, fun hac => hab.2 (h a.1 b.1 ?_)⟩⟩
    exact ⟨hab.1.to_reflTransGen, hac ▸ hbc.1.to_reflTransGen⟩
  exact Finite.wellFounded_of_trans_of_irrefl _

/-! ## Acyclic coarsenings -/

/-- The quotient of `r` by `e` has no cycle through two or more classes. -/
def AcyclicModulo (r e : α → α → Prop) : Prop :=
  ∀ a b, StronglyConnected (r ⊔ e) a b → e a b

/-- Put nodes that reach each other along `r` and `e` in one class. -/
def collapse (r e : α → α → Prop) : α → α → Prop := StronglyConnected (r ⊔ e)

section Collapse

variable {r e f : α → α → Prop}

theorem le_collapse (hsymm : ∀ a b, e a b → e b a) : e ≤ collapse r e := fun _ _ h =>
  ⟨.single (.inr h), .single (.inr (hsymm _ _ h))⟩

theorem reach_sup_collapse {a b : α} (h : ReflTransGen (r ⊔ collapse r e) a b) :
    ReflTransGen (r ⊔ e) a b := by
  induction h with
  | refl => exact .refl
  | tail _ hbc ih =>
      cases hbc with
      | inl hr => exact ih.tail (.inl hr)
      | inr hc => exact ih.trans hc.1

theorem acyclicModulo_collapse (r e : α → α → Prop) : AcyclicModulo r (collapse r e) :=
  fun _ _ h => ⟨reach_sup_collapse h.1, reach_sup_collapse h.2⟩

theorem collapse_le (hf : AcyclicModulo r f) (hef : e ≤ f) : collapse r e ≤ f := fun a b h =>
  have hmono : ∀ x y, (r ⊔ e) x y → (r ⊔ f) x y := fun x y hxy => hxy.imp id (hef x y)
  hf a b ⟨ReflTransGen.mono hmono _ _ h.1, ReflTransGen.mono hmono _ _ h.2⟩

theorem collapse_mono (hef : e ≤ f) : collapse r e ≤ collapse r f := fun _ _ h =>
  have hmono : ∀ x y, (r ⊔ e) x y → (r ⊔ f) x y := fun x y hxy => hxy.imp id (hef x y)
  ⟨ReflTransGen.mono hmono _ _ h.1, ReflTransGen.mono hmono _ _ h.2⟩

theorem collapse_eq_of_le (hef : e ≤ f) (hfe : f ≤ collapse r e) : collapse r f = collapse r e :=
  le_antisymm (collapse_le (acyclicModulo_collapse r e) hfe) (collapse_mono hef)

/-- Collapsing early changes nothing: a relation collapsed before another one
is added gives the same classes as collapsing both at once. -/
theorem collapse_sup_collapse (hsymm : ∀ a b, e a b → e b a) :
    collapse r (collapse r e ⊔ f) = collapse r (e ⊔ f) := by
  apply le_antisymm
  · have hreach : ∀ a b, ReflTransGen (r ⊔ (collapse r e ⊔ f)) a b →
        ReflTransGen (r ⊔ (e ⊔ f)) a b := by
      intro a b h
      induction h with
      | refl => exact .refl
      | tail _ hbc ih =>
          rcases hbc with hr | hc | hf
          · exact ih.tail (.inl hr)
          · exact ih.trans (ReflTransGen.mono (fun x y hxy => hxy.imp id .inl) _ _ hc.1)
          · exact ih.tail (.inr (.inr hf))
    exact fun a b h => ⟨hreach a b h.1, hreach b a h.2⟩
  · exact collapse_mono (sup_le_sup_right (le_collapse hsymm) f)

end Collapse

/-! ## Contraction -/

section Contraction

variable {r : α → α → Prop} {C : α → Prop}

/-- Every path between two nodes of `C` stays in `C`. -/
def ConvexIn (r : α → α → Prop) (C : α → Prop) : Prop :=
  ∀ a, (∃ k, C k ∧ ReflTransGen r k a) → (∃ k, C k ∧ ReflTransGen r a k) → C a

/-- A path that may jump inside `C` is a path, or a path into `C` and one out of it. -/
theorem reach_or_through {a b : α} (h : ReflTransGen (r ⊔ fun a b => C a ∧ C b) a b) :
    ReflTransGen r a b ∨
      (∃ k, C k ∧ ReflTransGen r a k) ∧ ∃ k, C k ∧ ReflTransGen r k b := by
  induction h with
  | refl => exact .inl .refl
  | @tail b c _ hbc ih =>
      cases hbc with
      | inl hr =>
          cases ih with
          | inl hab => exact .inl (hab.tail hr)
          | inr h =>
              obtain ⟨hin, k, hk, hkb⟩ := h
              exact .inr ⟨hin, k, hk, hkb.tail hr⟩
      | inr hC =>
          cases ih with
          | inl hab => exact .inr ⟨⟨b, hC.1, hab⟩, c, hC.2, .refl⟩
          | inr h => exact .inr ⟨h.1, c, hC.2, .refl⟩

/-- Contracting nodes of an acyclic graph keeps it acyclic exactly if no path
leaves them and comes back. -/
theorem acyclicModulo_contract_iff (hac : Acyclic r) :
    AcyclicModulo r (fun a b => a = b ∨ (C a ∧ C b)) ↔ ConvexIn r C := by
  have hmono : ∀ x y, (r ⊔ fun a b => C a ∧ C b) x y →
      (r ⊔ fun a b => a = b ∨ (C a ∧ C b)) x y := fun _ _ => Or.imp id .inr
  constructor
  · rintro h a ⟨k, hk, hka⟩ ⟨k', hk', hak⟩
    have hsc : StronglyConnected (r ⊔ fun a b => a = b ∨ (C a ∧ C b)) k a :=
      ⟨ReflTransGen.mono (fun _ _ => .inl) _ _ hka,
        (ReflTransGen.mono (fun _ _ => .inl) _ _ hak).tail (.inr (.inr ⟨hk', hk⟩))⟩
    cases h k a hsc with
    | inl heq => exact heq ▸ hk
    | inr hC => exact hC.2
  · intro h a b hab
    -- a step inside one class is no step or a jump inside `C`
    have hjump : ∀ {x y}, ReflTransGen (r ⊔ fun a b => a = b ∨ (C a ∧ C b)) x y →
        ReflTransGen (r ⊔ fun a b => C a ∧ C b) x y := by
      intro x y hxy
      induction hxy with
      | refl => exact .refl
      | tail _ hyz ih =>
          rcases hyz with hr | rfl | hC
          · exact ih.tail (.inl hr)
          · exact ih
          · exact ih.tail (.inr hC)
    rcases reach_or_through (hjump hab.1) with h₁ | ⟨⟨k, hk, hak⟩, k', hk', hkb⟩ <;>
      rcases reach_or_through (hjump hab.2) with h₂ | ⟨⟨j, hj, hbj⟩, j', hj', hja⟩
    · exact .inl (hac a b ⟨h₁, h₂⟩)
    · have ha : C a := h a ⟨j', hj', hja⟩ ⟨j, hj, h₁.trans hbj⟩
      exact .inr ⟨ha, h b ⟨j', hj', hja.trans h₁⟩ ⟨j, hj, hbj⟩⟩
    · have ha : C a := h a ⟨k', hk', hkb.trans h₂⟩ ⟨k, hk, hak⟩
      exact .inr ⟨ha, h b ⟨k', hk', hkb⟩ ⟨k, hk, h₂.trans hak⟩⟩
    · exact .inr ⟨h a ⟨j', hj', hja⟩ ⟨k, hk, hak⟩, h b ⟨k', hk', hkb⟩ ⟨j, hj, hbj⟩⟩

theorem stronglyConnected_contract_iff {a b : α} (ha : C a) :
    StronglyConnected (r ⊔ fun a b => C a ∧ C b) a b ↔
      (∃ k, C k ∧ ReflTransGen r k b) ∧ ∃ k, C k ∧ ReflTransGen r b k := by
  have hmono : ∀ {x y}, ReflTransGen r x y → ReflTransGen (r ⊔ fun a b => C a ∧ C b) x y :=
    fun h => ReflTransGen.mono (fun _ _ => .inl) _ _ h
  constructor
  · rintro ⟨hab, hba⟩
    refine ⟨?_, ?_⟩
    · rcases reach_or_through hab with h | h
      · exact ⟨a, ha, h⟩
      · exact h.2
    · rcases reach_or_through hba with h | h
      · exact ⟨a, ha, h⟩
      · exact h.1
  · rintro ⟨⟨k, hk, hkb⟩, k', hk', hbk'⟩
    exact ⟨.head (.inr ⟨ha, hk⟩) (hmono hkb), (hmono hbk').tail (.inr ⟨hk', ha⟩)⟩

end Contraction

/-- In a non-empty finite set of nodes of an acyclic graph without self-loops some
node has no edge to another one of the set. -/
theorem Acyclic.exists_maximal {r : α → α → Prop} (hac : Acyclic r) (hirr : ∀ a, ¬ r a a)
    {l : List α} (hl : l ≠ []) : ∃ a ∈ l, ∀ b ∈ l, ¬ r a b := by
  have hirr' : Std.Irrefl (TransGen r) := ⟨hac.not_transGen_self hirr⟩
  have htrans : IsTrans α (TransGen r) := ⟨fun _ _ _ => TransGen.trans⟩
  have horder : IsStrictOrder α (TransGen r) := {}
  have hwf : { a | a ∈ l }.WellFoundedOn (Function.swap (TransGen r)) :=
    (List.finite_toSet l).wellFoundedOn
  obtain ⟨a, ha⟩ := List.exists_mem_of_ne_nil l hl
  obtain ⟨m, hm, hmax⟩ := hwf.has_min (Set.univ) ⟨⟨a, ha⟩, trivial⟩
  exact ⟨m, m.2, fun b hb hmb => hmax ⟨b, hb⟩ trivial (.single hmb)⟩

/-! ## Quotient graphs -/

/-- Two elements of one class. -/
def SameClass (M : σ → α → Prop) (a b : α) : Prop := ∃ s, M s a ∧ M s b

section Quotient

/- `M s a` says that the element `a` belongs to the class `s`, `E` is the graph
over the elements and `R` the graph over the classes. -/
variable {M : σ → α → Prop} {E : α → α → Prop} {R : σ → σ → Prop}
variable {a b : α} {s t : σ}

theorem SameClass.symm (h : SameClass M a b) : SameClass M b a :=
  h.imp fun _ hs => ⟨hs.2, hs.1⟩

theorem reach_of_reach_classes (hR : ∀ s t, R s t → s ≠ t → ∃ a b, M s a ∧ M t b ∧ E a b)
    (h : ReflTransGen R s t) : ∀ {a b : α}, M s a → M t b →
      ReflTransGen (E ⊔ SameClass M) a b := by
  induction h using ReflTransGen.head_induction_on with
  | refl => exact fun ha hb => .single (.inr ⟨t, ha, hb⟩)
  | @head s s' hst _ ih =>
      intro a b ha hb
      by_cases heq : s = s'
      · subst heq
        exact ih ha hb
      · obtain ⟨x, y, hx, hy, hxy⟩ := hR s s' hst heq
        have hax : ReflTransGen (E ⊔ SameClass M) a x := .single (.inr ⟨s, ha, hx⟩)
        exact (hax.tail (.inl hxy)).trans (ih hy hb)

section

variable (huniq : ∀ s t a, M s a → M t a → s = t)
  (hE : ∀ s a b, E a b → M s a → ∃ t, M t b ∧ (s = t ∨ R s t))

include huniq hE

theorem reach_classes_of_reach (h : ReflTransGen (E ⊔ SameClass M) a b) (ha : M s a) :
    ∃ t, M t b ∧ ReflTransGen R s t := by
  induction h with
  | refl => exact ⟨s, ha, .refl⟩
  | tail _ hbc ih =>
      obtain ⟨t, hb, hst⟩ := ih
      cases hbc with
      | inl hbc =>
          obtain ⟨u, hc, htu⟩ := hE t _ _ hbc hb
          rcases htu with rfl | htu
          · exact ⟨t, hc, hst⟩
          · exact ⟨u, hc, hst.tail htu⟩
      | inr hbc =>
          obtain ⟨u, hb', hc⟩ := hbc
          exact ⟨t, huniq t u _ hb hb' ▸ hc, hst⟩

/-- Two elements are strongly connected modulo their classes exactly when the
classes are strongly connected. -/
theorem stronglyConnected_iff_classes (hR : ∀ s t, R s t → s ≠ t → ∃ a b, M s a ∧ M t b ∧ E a b)
    (ha : M s a) (hb : M t b) :
    StronglyConnected (E ⊔ SameClass M) a b ↔ StronglyConnected R s t := by
  constructor
  · rintro ⟨hab, hba⟩
    obtain ⟨t', hb', hst⟩ := reach_classes_of_reach huniq hE hab ha
    obtain ⟨s', ha', hts⟩ := reach_classes_of_reach huniq hE hba hb
    rw [huniq t' t b hb' hb] at hst
    rw [huniq s' s a ha' ha] at hts
    exact ⟨hst, hts⟩
  · rintro ⟨hst, hts⟩
    exact ⟨reach_of_reach_classes hR hst ha hb, reach_of_reach_classes hR hts hb ha⟩

end

end Quotient

end Noelle
