import Mathlib.Algebra.GroupWithZero.Nat
import Mathlib.Data.List.Perm.Lattice
import Mathlib.Data.List.AList
import Mathlib.Data.Multiset.Filter

/-!
# Lib.Collections

The containers of the modelled programs.

A `PtrSet` is a duplicate-free list: the contents of a `std::set` or a
`std::unordered_set`.  The position of an element in the list means nothing:
a loop over a container meets its elements in the order `IterOrder.visit`
puts them in, an arbitrary permutation that stands for the order of the
addresses or of the hash buckets of one run.  A `std::map` is Mathlib's
`AList`.

The second half holds the rules for loops: one invariant rule for a fold that
can fail (`foldlM_rule`) and one for a fold that cannot (`foldl_rule`), both
with the processed prefix as an argument of the invariant.
-/

namespace Noelle

open Function List Option

/-! ## Duplicate-free containers -/

/-- A set of pointers: a list in which no element occurs twice. -/
structure PtrSet (α : Type) where
  elems : List α
  nodup : elems.Nodup
  deriving DecidableEq

namespace PtrSet

variable {α β : Type}

instance : Membership α (PtrSet α) := ⟨fun s a => a ∈ s.elems⟩

instance : EmptyCollection (PtrSet α) := ⟨⟨[], nodup_nil⟩⟩

instance : Inhabited (PtrSet α) := ⟨∅⟩

variable {s t : PtrSet α} {a : α}

@[simp] theorem mem_elems : a ∈ s.elems ↔ a ∈ s := Iff.rfl

@[simp] theorem elems_empty : (∅ : PtrSet α).elems = [] := rfl

@[simp] theorem not_mem_empty (a : α) : a ∉ (∅ : PtrSet α) := not_mem_nil

instance decidableBAll (s : PtrSet α) (p : α → Prop) [DecidablePred p] :
    Decidable (∀ a ∈ s, p a) :=
  inferInstanceAs (Decidable (∀ a ∈ s.elems, p a))

def size (s : PtrSet α) : Nat := s.elems.length

/-- Keep the elements that satisfy `p`. -/
def filter (p : α → Bool) (s : PtrSet α) : PtrSet α := ⟨s.elems.filter p, s.nodup.filter p⟩

@[simp] theorem mem_filter {p : α → Bool} :
    a ∈ s.filter p ↔ a ∈ s ∧ p a = true :=
  List.mem_filter

theorem eq_of_size_le_one (hs : s.size ≤ 1) {b : α} (ha : a ∈ s) (hb : b ∈ s) :
    a = b := by
  obtain ⟨c, hc⟩ | hnil : (∃ c, s.elems = [c]) ∨ s.elems = [] := by
    rcases Nat.le_one_iff_eq_zero_or_eq_one.mp hs with hzero | hone
    · exact .inr (length_eq_zero_iff.mp hzero)
    · exact .inl (length_eq_one_iff.mp hone)
  · rw [← mem_elems, hc, mem_singleton] at ha hb
    exact ha.trans hb.symm
  · rw [← mem_elems, hnil] at ha
    nomatch ha

theorem size_le_length {l : List α} (h : ∀ a ∈ s, a ∈ l) : s.size ≤ l.length :=
  (subperm_of_subset s.nodup h).length_le

theorem mem_of_size_le (h : ∀ a ∈ s, a ∈ t) (hsize : t.size ≤ s.size) (ha : a ∈ t) : a ∈ s :=
  ((subperm_of_subset s.nodup h).perm_of_length_le hsize).mem_iff.mpr ha

theorem perm_of_mem_iff (h : ∀ a, a ∈ s ↔ a ∈ t) : s.elems.Perm t.elems :=
  (perm_ext_iff_of_nodup s.nodup t.nodup).mpr h

variable [DecidableEq α]

instance (a : α) (s : PtrSet α) : Decidable (a ∈ s) := inferInstanceAs (Decidable (a ∈ s.elems))

/-- Insert an element; nothing happens if it is already there. -/
def insert (s : PtrSet α) (a : α) : PtrSet α := ⟨s.elems.insert a, s.nodup.insert⟩

/-- Erase an element; nothing happens if it is not there. -/
def erase (s : PtrSet α) (a : α) : PtrSet α := ⟨s.elems.erase a, s.nodup.erase a⟩

/-- Insert every element of a range. -/
def insertAll (s : PtrSet α) (l : List α) : PtrSet α := l.foldl insert s

def ofList (l : List α) : PtrSet α := insertAll ∅ l

variable {s : PtrSet α} {a b : α} {l : List α}

@[simp] theorem mem_insert : a ∈ s.insert b ↔ a = b ∨ a ∈ s :=
  mem_insert_iff

@[simp] theorem mem_erase : a ∈ s.erase b ↔ a ≠ b ∧ a ∈ s :=
  s.nodup.mem_erase_iff

@[simp] theorem mem_insertAll :
    a ∈ s.insertAll l ↔ a ∈ s ∨ a ∈ l := by
  induction l generalizing s with
  | nil => simp [insertAll]
  | cons b l ih =>
      have h : s.insertAll (b :: l) = (s.insert b).insertAll l := rfl
      rw [h, ih, mem_insert, mem_cons]
      tauto

@[simp] theorem mem_ofList : a ∈ ofList l ↔ a ∈ l := by
  simp [ofList]

theorem coe_insert_of_notMem (h : a ∉ s) :
    ((s.insert a).elems : Multiset α) = a ::ₘ (s.elems : Multiset α) := by
  have hins : (s.insert a).elems = a :: s.elems := insert_of_not_mem h
  rw [hins, Multiset.cons_coe]

end PtrSet

/-! ## Lists -/

variable {α β : Type} {f : α → Option β}

theorem exists_mapM {R : α → β → Prop} : ∀ {l : List α},
    (∀ a ∈ l, ∃ b, f a = some b ∧ R a b) →
      ∃ l', l.mapM f = some l' ∧ (∀ b ∈ l', ∃ a ∈ l, R a b) ∧ ∀ a ∈ l, ∃ b ∈ l', R a b
  | [], _ => ⟨[], rfl, by simp, by simp⟩
  | a :: l, h => by
      obtain ⟨b, hb, hR⟩ := h a (.head _)
      obtain ⟨l', hl', himage, hsource⟩ := exists_mapM fun x hx => h x (.tail a hx)
      refine ⟨b :: l', by simp [mapM_cons, hb, hl'], fun y hy => ?_, fun x hx => ?_⟩
      · rcases mem_cons.mp hy with rfl | hy
        · exact ⟨a, .head _, hR⟩
        · obtain ⟨x, hx, hxy⟩ := himage y hy
          exact ⟨x, .tail a hx, hxy⟩
      · rcases mem_cons.mp hx with rfl | hx
        · exact ⟨b, .head _, hR⟩
        · obtain ⟨y, hy, hxy⟩ := hsource x hx
          exact ⟨y, .tail b hy, hxy⟩

theorem mapM_eq_some_map {g : α → β} : ∀ {l : List α},
    (∀ a ∈ l, f a = some (g a)) → l.mapM f = some (l.map g)
  | [], _ => rfl
  | a :: l, h => by
      rw [mapM_cons, h a mem_cons_self,
        mapM_eq_some_map fun x hx => h x (.tail a hx)]
      rfl

/-- A function that succeeds on every element of a list that was built by positions. -/
theorem mapM_mapIdx_eq_some_map {γ : Type} {f : β → Option γ} {h : α → γ} : ∀ {l : List α}
    {g : Nat → α → β}, (∀ n a, l[n]? = some a → f (g n a) = some (h a)) →
      (l.mapIdx g).mapM f = some (l.map h)
  | [], _, _ => rfl
  | a :: l, g, hg => by
      rw [mapIdx_cons, mapM_cons, hg 0 a rfl,
        mapM_mapIdx_eq_some_map fun n b hb => hg (n + 1) b hb]
      rfl

theorem exists_mapM_id {ps : List (Option α)} (h : ∀ p ∈ ps, ∃ a, p = some a) :
    ∃ l, ps.mapM id = some l ∧ ∀ a, a ∈ l ↔ some a ∈ ps := by
  obtain ⟨l, hl, himage, hsource⟩ := @exists_mapM (Option α) α id (fun p a => p = some a) ps
    fun p hp => (h p hp).imp fun a ha => ⟨ha, ha⟩
  refine ⟨l, hl, fun a => ⟨fun ha => ?_, fun ha => ?_⟩⟩
  · obtain ⟨p, hp, rfl⟩ := himage a ha
    exact hp
  · obtain ⟨b, hb, heq⟩ := hsource _ ha
    exact some.inj heq ▸ hb

theorem length_filter_lt {p q : α → Bool} {l : List α} (h : ∀ a ∈ l, q a = true → p a = true)
    {a : α} (ha : a ∈ l) (hp : p a = true) (hq : q a = false) :
    (l.filter q).length < (l.filter p).length := by
  have heq : l.filter q = (l.filter p).filter q := by
    rw [List.filter_filter]
    refine filter_congr fun b hb => ?_
    cases hqb : q b with
    | true => simp [h b hb hqb]
    | false => simp
  rw [heq, length_filter_lt_length_iff_exists]
  exact ⟨a, mem_filter.mpr ⟨ha, hp⟩, by simp [hq]⟩

/-! ## Maps -/

theorem lookup_foldl_insert [DecidableEq α] (g : α → β) (a : α) : ∀ (l : List α)
    (map : AList fun _ : α => β), (l.foldl (fun map x => map.insert x (g x)) map).lookup a =
      if a ∈ l then some (g a) else map.lookup a
  | [], map => by simp
  | x :: l, map => by
      rw [foldl_cons, lookup_foldl_insert g a l]
      by_cases ha : a = x
      · subst ha
        simp
      · simp only [AList.lookup_insert_ne ha, mem_cons, ha, false_or]

/-! ## Maps of edges -/

section EdgeMaps

variable {N E : Type} [DecidableEq N] {maps : N → AList fun _ : N => E} {a b x y : N} {e : E}

theorem lookup_update_insert : (update maps a ((maps a).insert b e) x).lookup y =
    if x = a ∧ y = b then some e else (maps x).lookup y := by
  by_cases hx : x = a
  · subst hx
    rw [update_self]
    by_cases hy : y = b
    · subst hy
      simp
    · simp [AList.lookup_insert_ne hy, hy]
  · simp [hx]

theorem lookup_update_erase : (update maps a ((maps a).erase b) x).lookup y =
    if x = a ∧ y = b then none else (maps x).lookup y := by
  by_cases hx : x = a
  · subst hx
    rw [update_self]
    by_cases hy : y = b
    · subst hy
      simp
    · simp [AList.lookup_erase_ne hy, hy]
  · simp [hx]

/-- `maps` finds the edge between two nodes, if `edges` has one. -/
def Records (src dst : E → N) (edges : PtrSet E) (maps : N → AList fun _ : N => E) : Prop :=
  ∀ n m e, (maps n).lookup m = some e ↔ e ∈ edges ∧ src e = n ∧ dst e = m

variable {src dst : E → N} {edges : PtrSet E}

theorem Records.empty : Records src dst ∅ fun _ => ∅ := fun n m e => by simp

theorem Records.unique (h : Records src dst edges maps) {e' : E} (he : e ∈ edges) (he' : e' ∈ edges)
    (hsrc : src e = src e') (hdst : dst e = dst e') : e = e' := by
  have hlook := (h _ _ e).mpr ⟨he, rfl, rfl⟩
  rw [hsrc, hdst, (h _ _ e').mpr ⟨he', rfl, rfl⟩] at hlook
  exact (some.inj hlook).symm

theorem Records.insert [DecidableEq E] (h : Records src dst edges maps)
    (hnone : (maps (src e)).lookup (dst e) = none) :
    Records src dst (edges.insert e)
      (update maps (src e) ((maps (src e)).insert (dst e) e)) := by
  intro n m x
  rw [lookup_update_insert, PtrSet.mem_insert]
  split
  · rename_i heq
    rw [heq.1, heq.2, some.injEq]
    constructor
    · rintro rfl
      exact ⟨.inl rfl, rfl, rfl⟩
    · rintro ⟨rfl | hx, hs, hd⟩
      · rfl
      · rw [(h _ _ x).mpr ⟨hx, hs, hd⟩] at hnone
        cases hnone
  · rename_i hne
    rw [h]
    refine ⟨fun hx => ⟨.inr hx.1, hx.2⟩, fun hx => ⟨hx.1.resolve_left ?_, hx.2⟩⟩
    rintro rfl
    exact hne ⟨hx.2.1.symm, hx.2.2.symm⟩

end EdgeMaps

/-! ## Iteration order -/

/-- The order in which the loops of one run meet the elements of their
containers: some permutation of each container. -/
structure IterOrder where
  visit : {α : Type} → List α → List α
  visit_perm : ∀ {α : Type} (l : List α), (visit l).Perm l

namespace IterOrder

variable {α : Type} (ord : IterOrder)

/-- The order in which the containers happen to be stored. -/
def stored : IterOrder := ⟨fun l => l, fun l => List.Perm.refl l⟩

/-- The reverse of the order in which the containers happen to be stored. -/
def reversed : IterOrder := ⟨fun l => l.reverse, fun l => reverse_perm l⟩

@[simp] theorem mem_visit {l : List α} {a : α} : a ∈ ord.visit l ↔ a ∈ l :=
  (ord.visit_perm l).mem_iff

theorem nodup_visit {l : List α} (h : l.Nodup) : (ord.visit l).Nodup :=
  (ord.visit_perm l).nodup_iff.mpr h

theorem length_visit (l : List α) : (ord.visit l).length = l.length :=
  (ord.visit_perm l).length_eq

@[simp] theorem coe_visit (l : List α) : ((ord.visit l : List α) : Multiset α) = (l : Multiset α) :=
  Multiset.coe_eq_coe.mpr (ord.visit_perm l)

theorem exists_head {l : List α} (h : l ≠ []) : ∃ a ∈ l, (ord.visit l).head? = some a := by
  cases hv : ord.visit l with
  | nil =>
      have hlen := ord.length_visit l
      rw [hv] at hlen
      exact absurd (length_eq_zero_iff.mp hlen.symm) h
  | cons a rest =>
      refine ⟨a, ?_, rfl⟩
      rw [← ord.mem_visit, hv]
      exact .head _

theorem exists_visit_eq {l l' : List α} (h : l'.Perm l) : ∃ ord : IterOrder, ord.visit l = l' := by
  classical
  refine ⟨⟨fun {β} m => if heq : ∃ hβ : α = β, m = hβ ▸ l then heq.choose ▸ l' else m, ?_⟩, ?_⟩
  · intro β m
    split
    · rename_i heq
      obtain ⟨hβ, hm⟩ := heq
      subst hβ
      exact hm ▸ h
    · exact List.Perm.refl m
  · have heq : ∃ hα : α = α, l = hα ▸ l := ⟨rfl, rfl⟩
    dsimp only
    rw [dif_pos heq]

end IterOrder

/-! ## Loops -/

section Loops

variable {α σ : Type}

/-- Invariant rule for a loop that can fail: if each iteration succeeds and
extends the invariant from the processed prefix to the next element, the loop
succeeds and the invariant holds of the whole list. -/
theorem foldlM_rule (f : σ → α → Option σ) (I : List α → σ → Prop) {l : List α} {s : σ}
    (h0 : I [] s)
    (hstep : ∀ pre a post s, l = pre ++ a :: post → I pre s →
      ∃ s', f s a = some s' ∧ I (pre ++ [a]) s') :
    ∃ s', l.foldlM f s = some s' ∧ I l s' := by
  suffices h : ∀ post pre s, l = pre ++ post → I pre s →
      ∃ s', post.foldlM f s = some s' ∧ I l s' from h l [] s rfl h0
  intro post
  induction post with
  | nil =>
      intro pre s hl hI
      rw [append_nil] at hl
      exact ⟨s, rfl, hl ▸ hI⟩
  | cons a post ih =>
      intro pre s hl hI
      obtain ⟨s', hs', hI'⟩ := hstep pre a post s hl hI
      obtain ⟨s'', hs'', hI''⟩ := ih (pre ++ [a]) s' (by simp [hl]) hI'
      refine ⟨s'', ?_, hI''⟩
      rw [foldlM_cons, hs']
      exact hs''

/-- A fold fails at the first bad element. -/
theorem foldlM_eq_none (f : σ → α → Option σ) (I : List α → σ → Prop) (bad : α → Prop) {l : List α}
    {s : σ} (h0 : I [] s)
    (hstep : ∀ pre a post s, l = pre ++ a :: post → I pre s → ¬ bad a →
      ∃ s', f s a = some s' ∧ I (pre ++ [a]) s')
    (hbad : ∀ pre a post s, l = pre ++ a :: post → I pre s → bad a → f s a = none)
    (h : ∃ a ∈ l, bad a) : l.foldlM f s = none := by
  suffices h : ∀ post pre s, l = pre ++ post → I pre s → (∃ a ∈ post, bad a) →
      post.foldlM f s = none from h l [] s rfl h0 ‹_›
  intro post
  induction post with
  | nil => exact fun _ _ _ _ ⟨a, ha, _⟩ => nomatch ha
  | cons a post ih =>
      intro pre s hl hI hex
      rw [foldlM_cons]
      by_cases ha : bad a
      · rw [hbad pre a post s hl hI ha]
        rfl
      · obtain ⟨s', hs', hI'⟩ := hstep pre a post s hl hI ha
        rw [hs']
        obtain ⟨b, hb, hbb⟩ := hex
        refine ih (pre ++ [a]) s' (by simp [hl]) hI' ⟨b, ?_, hbb⟩
        exact (mem_cons.mp hb).resolve_left fun heq => ha (heq ▸ hbb)

/-- Two loops over one list whose iterations succeed together and keep a relation between the
states. -/
theorem foldlM_lockstep {τ : Type} (f : σ → α → Option σ) (g : τ → α → Option τ) (R : σ → τ → Prop) :
    ∀ {l : List α} {s : σ} {t : τ}, R s t →
      (∀ a ∈ l, ∀ s t, R s t → ∃ s' t', f s a = some s' ∧ g t a = some t' ∧ R s' t') →
        ∃ s' t', l.foldlM f s = some s' ∧ l.foldlM g t = some t' ∧ R s' t'
  | [], s, t, h, _ => ⟨s, t, rfl, rfl, h⟩
  | a :: l, s, t, h, hstep => by
      obtain ⟨s₁, t₁, hf, hg, h₁⟩ := hstep a (.head _) s t h
      obtain ⟨s', t', hf', hg', h'⟩ := foldlM_lockstep f g R (l := l) h₁
        fun b hb => hstep b (.tail a hb)
      refine ⟨s', t', ?_, ?_, h'⟩
      · rw [foldlM_cons, hf]
        exact hf'
      · rw [foldlM_cons, hg]
        exact hg'

theorem foldlM_flatMap {β : Type} (f : β → List α) (g : σ → α → Option σ) :
    ∀ (l : List β) (s : σ), l.foldlM (fun s b => (f b).foldlM g s) s = (l.flatMap f).foldlM g s
  | [], _ => rfl
  | b :: l, s => by
      rw [foldlM_cons, flatMap_cons, foldlM_append]
      exact congrArg _ (funext fun s => foldlM_flatMap f g l s)

theorem foldlM_preserves (f : σ → α → Option σ) (P : σ → Prop) :
    ∀ (l : List α) (s s' : σ), (∀ a ∈ l, ∀ s s', f s a = some s' → P s → P s') →
      l.foldlM f s = some s' → P s → P s'
  | [], s, s', _, h, hs => by
      rw [foldlM_nil] at h
      exact some.inj h ▸ hs
  | a :: l, s, s', hstep, h, hs => by
      rw [foldlM_cons] at h
      obtain ⟨s₁, h₁, h₂⟩ := bind_eq_some_iff.mp h
      exact foldlM_preserves f P l s₁ s' (fun b hb => hstep b (.tail a hb)) h₂
        (hstep a (.head _) s s₁ h₁ hs)

/-- A loop in a loop whose lists depend on the state is one loop, if no iteration changes a
list that is still to come. -/
theorem foldlM_flatMap_of_stable {β : Type} {f : σ → β → List α} {f₀ : β → List α}
    {g : σ → α → Option σ} {P : σ → Prop} : ∀ {l : List β} {s : σ}, l.Nodup → P s →
      (∀ b ∈ l, f s b = f₀ b) →
      (∀ b ∈ l, ∀ a ∈ f₀ b, ∀ s s', P s → g s a = some s' → P s' ∧ ∀ b', b' ≠ b → f s' b' = f s b') →
        l.foldlM (fun s b => (f s b).foldlM g s) s = (l.flatMap f₀).foldlM g s
  | [], _, _, _, _, _ => rfl
  | b :: l, s, hnodup, hP, hf, hstep => by
      obtain ⟨hb, hnodup⟩ := nodup_cons.mp hnodup
      rw [foldlM_cons, flatMap_cons, foldlM_append, hf b mem_cons_self]
      cases hrun : (f₀ b).foldlM g s with
      | none => rfl
      | some s₁ =>
          obtain ⟨hP₁, hf₁⟩ := foldlM_preserves g (fun s' => P s' ∧ ∀ b', b' ≠ b → f s' b' = f s b')
            (f₀ b) s s₁
            (fun a ha s' s'' hs h => by
              obtain ⟨hP', heq⟩ := hstep b (.head _) a ha s' s'' h.1 hs
              exact ⟨hP', fun b' hb' => (heq b' hb').trans (h.2 b' hb')⟩)
            hrun ⟨hP, fun _ _ => rfl⟩
          refine foldlM_flatMap_of_stable hnodup hP₁ (fun b' hb' => ?_)
            fun b' hb' => hstep b' (.tail b hb')
          rw [hf₁ b' fun heq => hb (heq ▸ hb'), hf b' (mem_cons_of_mem b hb')]

theorem foldl_rule (f : σ → α → σ) (I : List α → σ → Prop) {l : List α} {s : σ}
    (h0 : I [] s)
    (hstep : ∀ pre a post s, l = pre ++ a :: post → I pre s → I (pre ++ [a]) (f s a)) :
    I l (l.foldl f s) := by
  suffices h : ∀ post pre s, l = pre ++ post → I pre s → I l (post.foldl f s) from
    h l [] s rfl h0
  intro post
  induction post with
  | nil =>
      intro pre s hl hI
      rw [append_nil] at hl
      exact hl ▸ hI
  | cons a post ih =>
      intro pre s hl hI
      exact ih (pre ++ [a]) (f s a) (by simp [hl]) (hstep pre a post s hl hI)

end Loops

/-! A numeral of `Fin n` holds a proof of `NeZero n`.  Named instances keep one proof for all
definitions over a small type. -/

instance neZero_three : NeZero 3 := ⟨Nat.succ_ne_zero 2⟩

instance neZero_four : NeZero 4 := ⟨Nat.succ_ne_zero 3⟩

instance neZero_five : NeZero 5 := ⟨Nat.succ_ne_zero 4⟩

instance neZero_six : NeZero 6 := ⟨Nat.succ_ne_zero 5⟩

instance neZero_seven : NeZero 7 := ⟨Nat.succ_ne_zero 6⟩

instance neZero_eight : NeZero 8 := ⟨Nat.succ_ne_zero 7⟩

theorem nodup_zero : [0].Nodup := nodup_singleton 0

theorem nodup_one_two : [1, 2].Nodup := by decide

end Noelle
