import Mathlib.Logic.Relation

/-!
# Lib.Multigraph

Directed graphs whose edges are objects of their own, searched from a list of roots.

`live e` says that the edge `e` is followed, `src` and `dst` are its ends.  A search
from a list of roots gives every node to the first root that reaches it.  The search
forest is the whole graph if every node is entered by one edge from the nodes of its
own root and no root is entered by them (`ForestFrom`); such a graph has no cycle that
the roots reach.
-/

namespace Noelle

open Relation List

namespace Multigraph

variable {N E : Type} (src dst : E → N) (live : E → Prop)

/-- Some live edge goes from `a` to `b`. -/
def Arrow (a b : N) : Prop := ∃ e, live e ∧ src e = a ∧ dst e = b

/-- Live edges lead from `a` to `b`. -/
def Reaches (a b : N) : Prop := ReflTransGen (Arrow src dst live) a b

/-- `n` is reached from `root` and not from an earlier root. -/
def FirstFrom (earlier : List N) (root n : N) : Prop :=
  Reaches src dst live root n ∧ ∀ r ∈ earlier, ¬ Reaches src dst live r n

/-- The nodes of `root` are a tree. -/
def TreeFrom (earlier : List N) (root : N) : Prop :=
  ∀ e, live e → FirstFrom src dst live earlier root (src e) →
    FirstFrom src dst live earlier root (dst e) → dst e ≠ root ∧
      ∀ e', live e' → FirstFrom src dst live earlier root (src e') → dst e' = dst e → e' = e

/-- The nodes of every root are a tree. -/
def ForestFrom (roots : List N) : Prop :=
  ∀ earlier root later, roots = earlier ++ root :: later → TreeFrom src dst live earlier root

variable {src dst live} {earlier roots : List N} {root a b c : N}

theorem Arrow.of_live {e : E} (h : live e) : Arrow src dst live (src e) (dst e) := ⟨e, h, rfl, rfl⟩

/-- What follows a node that no earlier root reaches is its root's too, unless an
earlier root reaches it. -/
theorem FirstFrom.step (h : FirstFrom src dst live earlier root a) (hab : Arrow src dst live a b)
    (hb : ∀ r ∈ earlier, ¬ Reaches src dst live r b) : FirstFrom src dst live earlier root b :=
  ⟨h.1.tail hab, hb⟩

theorem not_reaches_of_reaches (h : ∀ r ∈ earlier, ¬ Reaches src dst live r b)
    (hab : Reaches src dst live a b) : ∀ r ∈ earlier, ¬ Reaches src dst live r a :=
  fun r hr hra => h r hr (hra.trans hab)

theorem exists_first (hroot : root ∈ roots) (h : Reaches src dst live root a) :
    ∃ earlier root later, roots = earlier ++ root :: later ∧
      FirstFrom src dst live earlier root a := by
  classical
  have hsome : (roots.find? fun r => decide (Reaches src dst live r a)).isSome = true :=
    List.find?_isSome.mpr ⟨root, hroot, decide_eq_true h⟩
  obtain ⟨r, hr⟩ := Option.isSome_iff_exists.mp hsome
  obtain ⟨hreach, earlier, later, heq, hno⟩ := List.find?_eq_some_iff_append.mp hr
  exact ⟨earlier, r, later, heq, of_decide_eq_true hreach, fun r' hr' => by simpa using hno r' hr'⟩

/-- No cycle goes through the nodes of a tree. -/
theorem TreeFrom.not_cycle (h : TreeFrom src dst live earlier root)
    (ha : FirstFrom src dst live earlier root a) : ¬ TransGen (Arrow src dst live) a a := by
  obtain ⟨hreach, hno⟩ := ha
  -- the edge that closes a cycle starts in a node of the same root
  have hback : ∀ {b}, FirstFrom src dst live earlier root b → TransGen (Arrow src dst live) b b →
      ∃ e, live e ∧ FirstFrom src dst live earlier root (src e) ∧ dst e = b ∧
        TransGen (Arrow src dst live) (src e) (src e) := by
    intro b hb hcycle
    obtain ⟨c, hbc, e, he, rfl, heb⟩ := TransGen.tail'_iff.mp hcycle
    have hcb : Arrow src dst live (src e) b := ⟨e, he, rfl, heb⟩
    exact ⟨e, he, ⟨hb.1.trans hbc, not_reaches_of_reaches hb.2 (.single hcb)⟩, heb,
      TransGen.head' hcb hbc⟩
  induction hreach with
  | refl =>
      intro hcycle
      obtain ⟨e, he, hsrc, heb, _⟩ := hback ⟨.refl, hno⟩ hcycle
      exact (h e he hsrc (heb.symm ▸ ⟨.refl, hno⟩)).1 heb
  | @tail b c hb hbc ih =>
      intro hcycle
      have hnob := not_reaches_of_reaches hno (.single hbc)
      have hc : FirstFrom src dst live earlier root c := ⟨hb.tail hbc, hno⟩
      obtain ⟨e, he, hsrc, hec, hcycle'⟩ := hback hc hcycle
      obtain ⟨e', he', rfl, hec'⟩ := hbc
      -- the tree edge into `c` is the one on the cycle
      have heq : e' = e :=
        (h e he hsrc (hec.symm ▸ hc)).2 e' he' ⟨hb, hnob⟩ (hec'.trans hec.symm)
      exact ih hnob (heq ▸ hcycle')

theorem ForestFrom.not_cycle (h : ForestFrom src dst live roots) (hroot : root ∈ roots)
    (ha : Reaches src dst live root a) : ¬ TransGen (Arrow src dst live) a a := by
  obtain ⟨earlier, r, later, heq, hfirst⟩ := exists_first hroot ha
  exact (h earlier r later heq).not_cycle hfirst

theorem forestFrom_concat : ForestFrom src dst live (earlier ++ [root]) ↔
    ForestFrom src dst live earlier ∧ TreeFrom src dst live earlier root := by
  constructor
  · intro h
    refine ⟨fun pre r post heq => h pre r (post ++ [root]) (by simp [heq]), h earlier root [] rfl⟩
  · rintro ⟨hforest, htree⟩ pre r post heq
    rcases eq_nil_or_concat post with rfl | ⟨post, r', rfl⟩
    · obtain ⟨rfl, hroot⟩ := append_inj' heq rfl
      obtain rfl := head_eq_of_cons_eq hroot
      exact htree
    · have hsplit : earlier ++ [root] = (pre ++ r :: post) ++ [r'] := by simpa using heq
      exact hforest pre r post (append_inj' hsplit rfl).1

end Multigraph

end Noelle
