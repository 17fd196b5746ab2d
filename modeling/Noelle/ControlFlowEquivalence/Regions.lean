import Noelle.PostDominance

/-!
# ControlFlowEquivalence.Regions

Pairs of blocks of which the first one dominates the second one and the second one
post-dominates the first one.

Between the blocks of such a pair, the parents in the post-dominator tree are the children in
the dominator tree.
-/

namespace Noelle

open Relation

variable {B : Type}

/-- Every run through `a` goes on to `b`, and every run through `b` comes from `a`. -/
structure Encloses (f : CFG B) (entry : B) (exits : B → Prop) (a b : B) : Prop where
  dominates : Dominates f.Flow entry a b
  postDominates : f.PostDominates exits b a

namespace Encloses

variable {f : CFG B} {entry : B} {exits : B → Prop} {a b c p q : B}

theorem refl (a : B) : Encloses f entry exits a a := ⟨.refl a, .refl a⟩

theorem trans (h : Encloses f entry exits a b) (h' : Encloses f entry exits b c) :
    Encloses f entry exits a c :=
  ⟨h.dominates.trans h'.dominates, h'.postDominates.trans h.postDominates⟩

theorem of_same_end (h : Encloses f entry exits a b) (h' : Encloses f entry exits c b)
    (hb : ReflTransGen f.Flow entry b) :
    Encloses f entry exits a c ∨ Encloses f entry exits c a := by
  -- on the way from the first block to the end there is the other one
  have hbetween : ∀ {a c}, Encloses f entry exits a b → Encloses f entry exits c b →
      Dominates f.Flow entry a c → a ≠ c → f.PostDominates exits c a := by
    rintro a c hab hcb hac hne ⟨x, hx, hpath⟩
    have hca : ¬ Dominates f.Flow entry c a := fun hca =>
      hne (hac.antisymm (hab.dominates.reach hb) hca)
    rcases hpath.avoids_or_meets b with hpath | hpath
    · exact hab.postDominates ⟨x, hx, hpath⟩
    · exact hcb.dominates ((not_not.mp hca).trans hpath)
  by_cases hac : a = c
  · exact .inl (hac ▸ .refl a)
  · rcases h.dominates.total hb h'.dominates with hdom | hdom
    · exact .inl ⟨hdom, hbetween h h' hdom hac⟩
    · exact .inr ⟨hdom, hbetween h' h hdom (Ne.symm hac)⟩

theorem of_same_start (h : Encloses f entry exits b a) (h' : Encloses f entry exits b c)
    (hexit : f.ReachesExit exits) (hb : b ∈ f.blocks) :
    Encloses f entry exits a c ∨ Encloses f entry exits c a := by
  have hbetween : ∀ {a c}, Encloses f entry exits b a → Encloses f entry exits b c →
      f.PostDominates exits c a → a ≠ c → Dominates f.Flow entry a c := by
    intro a c hba hbc hca hne hpath
    have hac : ¬ f.PostDominates exits a c := fun hac =>
      hne (hac.antisymm hca hexit (hba.postDominates.mem_blocks hexit hb))
    obtain ⟨x, hx, hexitpath⟩ := not_not.mp hac
    rcases hpath.avoids_or_leaves b with hpath | hpath
    · exact hbc.dominates hpath
    · exact hba.postDominates ⟨x, hx, hpath.trans hexitpath⟩
  by_cases hac : a = c
  · exact .inl (hac ▸ .refl a)
  · rcases h.postDominates.total h'.postDominates hexit hb with hpost | hpost
    · exact .inr ⟨hbetween h' h hpost (Ne.symm hac), hpost⟩
    · exact .inl ⟨hbetween h h' hpost hac, hpost⟩

/-! ## The next block of a chain -/

section Next

variable (h : Encloses f entry exits a q) (hexit : f.ReachesExit exits) (ha : a ∈ f.blocks)
  (hq : ReflTransGen f.Flow entry q) (hpost : f.PostDominates exits p a)
  (hnext : ∀ d, d ≠ a → f.PostDominates exits d a → f.PostDominates exits d p) (haq : a ≠ q)

include h hexit ha hpost hnext haq

theorem next_dominates_end : Dominates f.Flow entry p q := by
  intro hpath
  have hqp := hnext q (Ne.symm haq) h.postDominates
  have hne : q ≠ p := hpath.target_ne
  have hnot : ¬ f.PostDominates exits p q := fun hpq =>
    hne (hqp.antisymm hpq hexit (h.postDominates.mem_blocks hexit ha))
  obtain ⟨x, hx, hexitpath⟩ := not_not.mp hnot
  rcases hpath.avoids_or_leaves a with hpath | hpath
  · exact h.dominates hpath
  · exact hpost ⟨x, hx, hpath.trans hexitpath⟩

include hq

/-- The start of a region dominates what follows it. -/
theorem dominates_next : Dominates f.Flow entry a p := by
  have hpq := h.next_dominates_end hexit ha hpost hnext haq
  rcases h.dominates.total hq hpq with hdom | hpdom
  · exact hdom
  · -- a path that goes to `p` without `a` and leaves `p` for good meets `q`, hence `a`
    by_contra hnot
    have hentry : PathAvoiding f.Flow a entry p := not_not.mp hnot
    have hqp := hnext q (Ne.symm haq) h.postDominates
    have hpblock := hpost.mem_blocks hexit ha
    by_cases hpq' : p = q
    · exact hnot (hpq' ▸ h.dominates)
    obtain ⟨x, hx, hpx⟩ := hexit p hpblock
    by_cases hxp : x = p
    · have hxq : x ≠ q := fun heq => hpq' (hxp.symm.trans heq)
      exact hqp ⟨x, hx, hxp ▸ .refl hxq⟩
    obtain ⟨c, hflow, hcx⟩ := exists_last hpx (fun hpath => hpath.1 rfl) hxp
    rcases hcx.avoids_or_meets q with hcx' | hcq
    · exact hqp ⟨x, hx, hcx'.head hflow hpq'⟩
    · have hqx : PathAvoiding f.Flow p q x := by
        rcases hcx.avoids_or_leaves q with hcx' | hqx
        · exact absurd ⟨x, hx, hcx'.head hflow hpq'⟩ hqp
        · exact hqx
      rcases hcq.avoids_or_leaves a with hcq' | haq'
      · exact h.dominates ((hentry.tail hflow hcq'.1).trans hcq')
      · exact hpost ⟨x, hx, haq'.trans hqx⟩

/-- The start of a region is the closest dominator of what follows it. -/
theorem start_idom_next {d : B} (hd : d ≠ p) (hdp : Dominates f.Flow entry d p) :
    Dominates f.Flow entry d a := by
  have hap := h.dominates_next hexit ha hq hpost hnext haq
  have hpq := h.next_dominates_end hexit ha hpost hnext haq
  have hpreach := hpq.reach hq
  rcases hdp.total hpreach hap with hda | had
  · exact hda
  · by_contra hnot
    have hentry : PathAvoiding f.Flow d entry a := not_not.mp hnot
    -- `d` is on every path from `a` to the end of the function
    have hda : f.PostDominates exits d a := by
      rintro ⟨x, hx, hpath⟩
      rcases hpath.avoids_or_meets p with hpath | hpath
      · exact hpost ⟨x, hx, hpath⟩
      · exact hdp (hentry.trans hpath)
    have hdpost := hnext d (fun heq => hnot (heq ▸ .refl d)) hda
    have hpd : ¬ f.PostDominates exits p d := fun hpd =>
      hd (hdpost.antisymm hpd hexit (hda.mem_blocks hexit ha))
    obtain ⟨x, hx, hdx⟩ := not_not.mp hpd
    have hpdom : ¬ Dominates f.Flow entry p d := fun hpdom =>
      hd (hdp.antisymm (hdp.reach hpreach) hpdom)
    rcases (not_not.mp hpdom).avoids_or_leaves a with hpath | hpath
    · exact had hpath
    · exact hpost ⟨x, hx, hpath.trans hdx⟩

end Next

end Encloses

end Noelle
