import Mathlib.Data.List.Nodup
import Noelle.Lib.Hoisting

/-!
# Lib.Sinking

Moving instructions of a block of a loop to the beginning of its successor in the loop, and clones
of them to the beginning of its other successor.

PHIs of the successors that receive a moved instruction are replaced by it, or by its clone
(`Sunk`).  What stays in the block may not use what is moved (`Sinkable`).  Behind the other
successor nothing uses a moved instruction any more, since what the loop computes is used in the
loop only (`InLCSSA`) and the loop is entered at its header (`Sinkable.not_used`).
-/

namespace Noelle

open Relation List

namespace SSACode

variable {V B Val Mem : Type} {f g : SSACode V B} {b c : B} {i x : V}

/-! ## The order of a block -/

variable {rest before : List V}

theorem pointAt_inj {rest' : List V} (h : (pointAt b rest : SSAPoint V B) = pointAt c rest') :
    b = c ∧ rest.head? = rest'.head? := by
  cases rest <;> cases rest' <;> simp [pointAt] at h ⊢ <;> exact h

/-- A point in a block is reached from the instruction before it. -/
theorem Next.to_pointAt (hnodup : (f.body b).Nodup) (hbody : f.body b = before ++ i :: rest)
    {p : SSAPoint V B} (h : f.Next p (pointAt b rest)) :
    p = .instruction b i := by
  generalize hq : pointAt b rest = q at h
  cases h with
  | enter c =>
      obtain ⟨rfl, hhead⟩ := pointAt_inj hq
      cases rest with
      | nil => simp [hbody] at hhead
      | cons j rest =>
          -- the first instruction of the block does not come behind another one
          obtain ⟨tail, htail⟩ := List.head?_eq_some_iff.mp hhead.symm
          have hj : j ∈ tail := by
            rw [htail] at hbody
            cases before with
            | nil => exact (List.cons.inj hbody).2 ▸ (.head _)
            | cons k before => simp [(List.cons.inj hbody).2]
          exact absurd hj (nodup_cons.mp (htail ▸ hnodup)).1
  | @instruction c before' rest' i' hbody' =>
      obtain ⟨rfl, hhead⟩ := pointAt_inj hq
      have hlast : before ++ [i] = before' ++ [i'] := by
        cases rest with
        | nil =>
            obtain rfl : rest' = [] := List.head?_eq_none_iff.mp hhead.symm
            exact hbody.symm.trans hbody'
        | cons j rest =>
            obtain ⟨tail, rfl⟩ := List.head?_eq_some_iff.mp hhead.symm
            have hsplit : (before ++ [i]) ++ j :: rest = (before' ++ [i']) ++ j :: tail := by
              simpa using hbody.symm.trans hbody'
            have hnodup' : ((before ++ [i]) ++ j :: rest).Nodup := by simpa [← hbody] using hnodup
            have hj := (nodup_cons.mp (nodup_middle.mp hnodup')).1
            rw [mem_append, not_or] at hj
            exact ((append_cons_inj_of_notMem hj.1 hj.2).mp hsplit).1
      rw [(singleton_inj.mp (append_inj' hlast rfl).2)]
  | jump => exact absurd hq (pointAt_ne_begin b _ rest)

theorem dominates_in_block (hnodup : (f.body b).Nodup) {mid : List V}
    (hbody : f.body b = before ++ i :: (mid ++ rest)) :
    Dominates f.Next (.begin f.entry) (.instruction b i) (pointAt b rest) := by
  have hsingle : ∀ {before rest : List V} {i : V}, f.body b = before ++ i :: rest →
      Dominates f.Next (.begin f.entry) (.instruction b i) (pointAt b rest) := fun hbody =>
    .of_single (fun _ hp => Next.to_pointAt hnodup hbody hp) (pointAt_ne_begin b f.entry _)
  induction mid using List.reverseRecOn generalizing rest with
  | nil => exact hsingle hbody
  | append_singleton mid j ih =>
      rw [append_assoc, singleton_append] at hbody
      have hbody' : f.body b = (before ++ i :: mid) ++ j :: rest := by simp [hbody]
      exact (ih hbody).trans (hsingle hbody')

theorem dominates_terminator (hnodup : (f.body b).Nodup) (hrest : rest <:+ f.body b) :
    Dominates f.Next (.begin f.entry) (pointAt b rest) (.terminator b) := by
  obtain ⟨before, hbody⟩ := hrest
  cases rest with
  | nil => exact .refl _
  | cons i rest =>
      have hbody' : f.body b = before ++ i :: (rest ++ []) := by simpa using hbody.symm
      exact dominates_in_block hnodup hbody'

theorem WF.operand_before [DecidableEq B] (hf : f.WF) (hreach : f.Reaches (.begin b))
    (hnodup : (f.body b).Nodup) (hbody : f.body b = before ++ i :: rest) (hx : x ∈ f.operands i)
    (hxb : x ∈ f.body b) : x ∈ before := by
  have hi : i ∈ f.body b := by simp [hbody]
  obtain ⟨hne, hdom⟩ := hf.operands b i hi x hx _ (.instruction hxb)
  have hxi : x ≠ i := fun heq => hne (heq ▸ rfl)
  rw [hbody, mem_append, mem_cons] at hxb
  refine (hxb.resolve_right fun hxb => ?_)
  obtain ⟨mid, after, rfl⟩ := append_of_mem (hxb.resolve_left hxi)
  have hback := dominates_in_block hnodup hbody
  have hsuffix : x :: after <:+ f.body b := ⟨before ++ i :: mid, by simp [hbody]⟩
  have hxreach : f.Reaches (pointAt b (x :: after)) :=
    hreach.trans (ReflTransGen.mono (fun _ _ h => h.1) _ _ (reach_in_block hsuffix))
  exact hne (Dominates.antisymm hxreach hdom hback)

/-- In a block nothing is available that is computed by PHIs of a successor which has no other
predecessor. -/
theorem WF.phi_not_available [DecidableEq B] (hf : f.WF) (hreach : f.Reaches (.begin b))
    (hnodup : (f.body b).Nodup) (hc : c ∈ f.successors b)
    (hsingle : ∀ a, c ∈ f.successors a → a = b) (hx : x ∈ f.phis c)
    (hrest : rest <:+ f.body b) : ¬ f.Available x (pointAt b rest) := by
  intro havail
  obtain ⟨-, hdom⟩ := havail _ (.phi hx)
  have hterm : Dominates f.Next (.begin f.entry) (.terminator b) (.begin c) := by
    refine .of_single (fun p hp => ?_) fun heq => ?_
    · obtain ⟨a, rfl, ha⟩ := hp.to_begin
      rw [hsingle a ha]
    · exact hf.entry b (SSAPoint.begin.inj heq ▸ hc)
  have hreach' : f.Reaches (pointAt b rest) :=
    hreach.trans (ReflTransGen.mono (fun _ _ h => h.1) _ _ (reach_in_block hrest))
  exact pointAt_ne_begin b c rest
    (Dominates.antisymm hreach' ((dominates_terminator hnodup hrest).trans hterm) hdom)

/-! ## What is moved -/

/-- The instructions `moved` of the block `parent`, with their clones and the values that replace
PHIs. -/
structure Sinking (V B : Type) where
  moved : List V
  clone : V → V
  replacement : V → V
  parent : B
  inside : B
  outside : B

/-- The clones, in the order of the instructions. -/
def Sinking.clones (k : Sinking V B) : List V := k.moved.map k.clone

/-- The value occurs in the code. -/
inductive Occurs (f : SSACode V B) (x : V) : Prop
  | phi {b : B} : x ∈ f.phis b → Occurs f x
  | body {b : B} : x ∈ f.body b → Occurs f x
  | operand {b : B} {i : V} : i ∈ f.body b → x ∈ f.operands i → Occurs f x
  | terminatorOperand {b : B} : x ∈ f.terminatorOperands b → Occurs f x
  | incoming {b : B} {p : V} {e : B × V} : p ∈ f.phis b → e ∈ f.incoming p → e.2 = x → Occurs f x

section Uses

variable [DecidableEq B]

/-- The value is read at the point; PHIs read at the end of the predecessor. -/
inductive UsedAt (f : SSACode V B) (x : V) : SSAPoint V B → Prop
  | instruction {b : B} {i : V} : i ∈ f.body b → x ∈ f.operands i → UsedAt f x (.instruction b i)
  | terminator {b : B} : x ∈ f.terminatorOperands b → UsedAt f x (.terminator b)
  | phi {b c : B} {p : V} : c ∈ f.successors b → p ∈ f.phis c →
      (f.incoming p).lookup b = some x → UsedAt f x (.terminator b)

/-- What the loop computes is used in the loop only: its exit blocks have PHIs for it. -/
def InLCSSA (f : SSACode V B) (loop : B → Prop) : Prop :=
  ∀ x d q, f.DefinedAt x d → loop d.block → f.Reaches q → f.UsedAt x q → loop q.block

/-- The loop is entered at its header. -/
structure EnteredAt (f : SSACode V B) (loop : B → Prop) (header : B) : Prop where
  entry_not_mem : ¬ loop f.entry
  enters : ∀ b c, f.Reaches (.terminator b) → c ∈ f.successors b → ¬ loop b → loop c → c = header

/-- The instructions can be moved out of their block: it has two successors, in the loop and outside,
which have no other predecessor, and nothing that stays uses them. -/
structure Sinkable (f : SSACode V B) (loop : B → Prop) (k : Sinking V B) : Prop where
  reaches : f.Reaches (.begin k.parent)
  nodup : (f.body k.parent).Nodup
  sublist : k.moved.Sublist (f.body k.parent)
  successors : ∀ c, c ∈ f.successors k.parent ↔ c = k.inside ∨ c = k.outside
  single_inside : ∀ a, k.inside ∈ f.successors a → a = k.parent
  single_outside : ∀ a, k.outside ∈ f.successors a → a = k.parent
  parent_mem : loop k.parent
  inside_mem : loop k.inside
  outside_not_mem : ¬ loop k.outside
  operands : ∀ i ∈ f.body k.parent, i ∉ k.moved → ∀ x ∈ f.operands i, x ∉ k.moved
  terminatorOperands : ∀ x ∈ f.terminatorOperands k.parent, x ∉ k.moved

end Uses

/-- The clones are new values, one for each instruction. -/
structure Fresh (f : SSACode V B) (k : Sinking V B) : Prop where
  injective : ∀ m ∈ k.moved, ∀ m' ∈ k.moved, k.clone m = k.clone m' → m = m'
  not_occurs : ∀ m ∈ k.moved, ¬ f.Occurs (k.clone m)

/-- `g` is `f` with the instructions moved. -/
structure Sunk [DecidableEq V] [DecidableEq B] (f g : SSACode V B) (k : Sinking V B) : Prop where
  entry : g.entry = f.entry
  successors : g.successors = f.successors
  body_parent : g.body k.parent = kept k.moved (f.body k.parent)
  body_inside : g.body k.inside = k.moved ++ f.body k.inside
  body_outside : g.body k.outside = k.clones ++ f.body k.outside
  body : ∀ b, b ≠ k.parent → b ≠ k.inside → b ≠ k.outside → g.body b = f.body b
  /-- PHIs that receive a moved instruction are replaced, by it or by its clone. -/
  replaced_inside : ∀ p ∈ f.phis k.inside, ∀ m ∈ k.moved,
    (f.incoming p).lookup k.parent = some m → k.replacement p = m
  replaced_outside : ∀ p ∈ f.phis k.outside, ∀ m ∈ k.moved,
    (f.incoming p).lookup k.parent = some m → k.replacement p = k.clone m
  replaced : ∀ x, k.replacement x ≠ x → (x ∈ f.phis k.inside ∨ x ∈ f.phis k.outside) ∧
    ∃ m ∈ k.moved, (f.incoming x).lookup k.parent = some m
  phis : ∀ b, g.phis b = (f.phis b).filter fun x => decide (k.replacement x = x)
  incoming : ∀ b, ∀ p ∈ g.phis b,
    g.incoming p = (f.incoming p).map fun e => (e.1, k.replacement e.2)
  operands : ∀ i, i ∉ k.clones → g.operands i = (f.operands i).map k.replacement
  /-- Clones use the clones of moved instructions, and the originals otherwise. -/
  operands_clone : ∀ m ∈ k.moved,
    g.operands (k.clone m) = (f.operands m).map fun x => if x ∈ k.moved then k.clone x else x
  terminatorOperands : ∀ b, g.terminatorOperands b = (f.terminatorOperands b).map k.replacement

/-! ## Uses behind the other successor -/

section NotUsed

variable [DecidableEq B] {loop : B → Prop} {header : B} {k : Sinking V B} {p q : SSAPoint V B}

theorem WF.available_of_used (hf : f.WF) (h : f.UsedAt x q) : f.Available x q := by
  cases h with
  | instruction hi hx => exact hf.operands _ _ hi x hx
  | terminator hx => exact hf.terminatorOperands _ x hx
  | phi hc hp hx =>
      obtain ⟨w, hw, havail⟩ := hf.incoming _ _ hc _ hp
      exact Option.mem_unique hx hw ▸ havail

section

omit [DecidableEq B]

theorem Next.block_eq_or_jump (h : f.Next p q) : q.block = p.block ∨
    ∃ b c, p = .terminator b ∧ q = .begin c ∧ c ∈ f.successors b := by
  cases h with
  | enter b => exact .inl (block_pointAt b _)
  | @instruction b _ rest _ _ => exact .inl (block_pointAt b rest)
  | @jump b c hc => exact .inr ⟨b, c, rfl, rfl, hc⟩

theorem avoids_block {d : SSAPoint V B} (hpath : PathAvoiding f.Next (.begin b) p q)
    (hp : p.block ≠ b) (hd : d.block = b) : PathAvoiding f.Next d p q := by
  have hne : ∀ {y : SSAPoint V B}, y.block ≠ b → y ≠ d := fun hy heq => hy (heq ▸ hd)
  refine (hpath.mem_of_closed (S := fun y => y.block ≠ b ∧ PathAvoiding f.Next d p y)
    ⟨hp, .refl (hne hp)⟩ ?_).2
  rintro y z ⟨hy, hpy⟩ hyz hz
  have hzb : z.block ≠ b := by
    rcases hyz.block_eq_or_jump with heq | ⟨a, c, rfl, rfl, hc⟩
    · exact heq ▸ hy
    · exact fun heq => hz (congrArg SSAPoint.begin heq)
  exact ⟨hzb, hpy.tail hyz (hne hzb)⟩

theorem EnteredAt.dominates (h : f.EnteredAt loop header) (hq : loop q.block) :
    Dominates f.Next (.begin f.entry) (.begin header) q := by
  intro hpath
  refine (hpath.mem_of_closed (S := fun y => f.Reaches y ∧ ¬ loop y.block)
    ⟨.refl, h.entry_not_mem⟩ ?_).2 hq
  rintro y z ⟨hreach, hy⟩ hyz hz
  refine ⟨hreach.next hyz, fun hloop => ?_⟩
  rcases hyz.block_eq_or_jump with heq | ⟨a, c, rfl, rfl, hc⟩
  · exact hy (heq ▸ hloop)
  · exact hz (congrArg SSAPoint.begin (h.enters a c hreach hc hy hloop))

end

/-- Once control has left the loop, and as long as it does not come back to the block, nothing that
was moved is used. -/
theorem Sinkable.not_used (hf : f.WF) (h : f.Sinkable loop k) (hentered : f.EnteredAt loop header)
    (hlcssa : f.InLCSSA loop) (hx : x ∈ k.moved)
    (hpath : PathAvoiding f.Next (.begin k.parent) (.begin k.outside) q) : ¬ f.UsedAt x q := by
  intro hused
  have hxb : x ∈ f.body k.parent := h.sublist.subset hx
  have hterm : f.Reaches (.terminator k.parent) := h.reaches.trans
    (ReflTransGen.mono (fun _ _ h => h.1) _ _ (reach_in_block (nil_suffix)))
  have houtside : f.Reaches (.begin k.outside) :=
    hterm.next (.jump ((h.successors k.outside).mpr (.inr rfl)))
  have hloop : loop q.block := hlcssa x _ q (.instruction hxb) h.parent_mem
    (houtside.trans hpath.reach) hused
  -- the path comes back to the loop at its header
  have hheader : PathAvoiding f.Next (.begin k.parent) (.begin header) q := by
    refine (hpath.mem_of_closed (S := fun y => f.Reaches y ∧
      (loop y.block → PathAvoiding f.Next (.begin k.parent) (.begin header) y))
      ⟨houtside, fun hout => absurd hout h.outside_not_mem⟩ ?_).2 hloop
    rintro y z ⟨hreach, hy⟩ hyz hz
    refine ⟨hreach.next hyz, fun hin => ?_⟩
    by_cases hyloop : loop y.block
    · exact (hy hyloop).tail hyz hz
    · rcases hyz.block_eq_or_jump with heq | ⟨a, c, rfl, rfl, hc⟩
      · exact absurd (heq ▸ hin) hyloop
      · obtain rfl := hentered.enters a c hreach hc hyloop hin
        exact .refl hz
  have hne : header ≠ k.parent := fun heq => hheader.1 (congrArg SSAPoint.begin heq)
  obtain ⟨before, after, hbody⟩ := append_of_mem hxb
  have hsuffix : x :: after <:+ f.body k.parent := ⟨before, hbody.symm⟩
  have hinst : f.Reaches (.instruction k.parent x) :=
    h.reaches.trans (ReflTransGen.mono (fun _ _ h => h.1) _ _ (reach_in_block hsuffix))
  have hdom := (hf.available_of_used hused _ (.instruction hxb)).2
  by_cases hback : Dominates f.Next (.begin f.entry) (.instruction k.parent x) (.begin header)
  · have heq := Dominates.antisymm hinst hback (hentered.dominates h.parent_mem)
    cases heq
  · exact hdom ((not_not.mp hback).trans (avoids_block hheader hne rfl))

end NotUsed

end SSACode

end Noelle
