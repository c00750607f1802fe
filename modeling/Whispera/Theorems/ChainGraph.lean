import Whispera.OutboundTables

/-! The tags on the stack lead to the one that is visited, so a tag that is met again closes a cycle; and a
visit without an error has followed every way from its tag. -/

namespace Whispera
open List Relation

variable {configs : List OutboundConfig} {stack order : List String} {tag : String}

/-- The chain of `a` goes over `b`, which is configured. -/
def Linked (configs : List OutboundConfig) (a b : String) : Prop :=
  ∃ c ∈ configs, c.tag = a ∧ b ∈ c.chain ∧ b ∈ configs.map OutboundConfig.tag

theorem isSome_knownChain (h : tag ∈ configs.map OutboundConfig.tag) : (knownChain configs tag).isSome = true := by
  obtain ⟨c, hc, rfl⟩ := mem_map.mp h
  rw [knownChain, Option.isSome_map, find?_isSome]
  exact ⟨c, mem_reverse.mpr hc, beq_self_eq_true c.tag⟩

theorem knownChain_eq (hnodup : (configs.map OutboundConfig.tag).Nodup) {c : OutboundConfig} (hc : c ∈ configs) :
    knownChain configs c.tag = some c.chain := by
  obtain ⟨chain, hchain⟩ := Option.isSome_iff_exists.mp (isSome_knownChain (mem_map_of_mem hc))
  obtain ⟨d, hd, htag, rfl⟩ := mem_of_knownChain hchain
  rw [hchain, inj_on_of_nodup_map hnodup hd hc htag]

theorem known_of_visit {e : String} (h : visit configs stack tag = some e) : tag ∈ configs.map OutboundConfig.tag := by
  rw [visit] at h
  split at h
  · cases h
  · rename_i hchain
    obtain ⟨c, hc, rfl, -⟩ := mem_of_knownChain hchain
    exact mem_map_of_mem hc

theorem cycle_of_visit {e : String} (h : visit configs stack tag = some e)
    (hstack : ∀ t ∈ stack, TransGen (Linked configs) t tag) :
    ∃ t, TransGen (Linked configs) t t := by
  induction stack, tag using visit.induct configs with
  | case1 stack tag hnone =>
    rw [visit, hnone] at h
    cases h
  | case2 stack tag chain hchain hmem => exact ⟨tag, hstack tag hmem⟩
  | case3 stack tag chain hchain hmem ih =>
    rw [visit, hchain] at h
    simp only [hmem, dite_false] at h
    obtain ⟨hop, hhop, hvisit⟩ := exists_of_findSome?_eq_some h
    obtain ⟨c, hc, rfl, rfl⟩ := mem_of_knownChain hchain
    have hlink : Linked configs c.tag hop := ⟨c, hc, rfl, hhop, known_of_visit hvisit⟩
    refine ih hop hvisit fun t ht => ?_
    rcases mem_cons.mp ht with rfl | ht
    · exact .single hlink
    · exact (hstack t ht).tail hlink

theorem not_reached_of_visit (hnodup : (configs.map OutboundConfig.tag).Nodup) (h : visit configs stack tag = none)
    (htag : tag ∈ configs.map OutboundConfig.tag) : ∀ t ∈ stack, ¬ ReflTransGen (Linked configs) tag t := by
  induction stack, tag using visit.induct configs with
  | case1 stack tag hnone =>
    have := isSome_knownChain htag
    rw [hnone] at this
    cases this
  | case2 stack tag chain hchain hmem =>
    rw [visit, hchain] at h
    simp [hmem] at h
  | case3 stack tag chain hchain hmem ih =>
    rw [visit, hchain] at h
    simp only [hmem, dite_false, findSome?_eq_none_iff] at h
    intro t ht hway
    rcases hway.cases_head with rfl | ⟨hop, ⟨c, hc, rfl, hhop, hknown⟩, hrest⟩
    · exact hmem ht
    · cases hchain.symm.trans (knownChain_eq hnodup hc)
      exact ih hop (h hop hhop) hknown t (mem_cons_of_mem _ ht) hrest

theorem validateChainGraph_of_acyclic (order : List String) (hacyclic : ∀ tag, ¬ TransGen (Linked configs) tag tag) :
    validateChainGraph configs order = none := by
  by_contra h
  obtain ⟨e, he⟩ := Option.ne_none_iff_exists'.mp h
  obtain ⟨tag, -, hvisit⟩ := exists_of_findSome?_eq_some he
  obtain ⟨t, ht⟩ := cycle_of_visit hvisit nofun
  exact hacyclic t ht

/-- In whatever order the tags are visited: there is no error iff there is no cycle. -/
theorem validateChainGraph_iff (configs : List OutboundConfig) (order : List String)
    (hnodup : (configs.map OutboundConfig.tag).Nodup)
    (horder : ∀ tag, tag ∈ order ↔ tag ∈ configs.map OutboundConfig.tag) :
    validateChainGraph configs order = none ↔ ∀ tag, ¬ TransGen (Linked configs) tag tag := by
  refine ⟨fun h tag hcycle => ?_, validateChainGraph_of_acyclic order⟩
  rw [validateChainGraph, findSome?_eq_none_iff] at h
  obtain ⟨hop, hlink, hrest⟩ := TransGen.head'_iff.mp hcycle
  obtain ⟨c, hc, rfl, hhop, hknown⟩ := hlink
  have htag := mem_map_of_mem (f := OutboundConfig.tag) hc
  have hvisit := h c.tag ((horder c.tag).mpr htag)
  rw [visit, knownChain_eq hnodup hc] at hvisit
  simp only [not_mem_nil, dite_false, findSome?_eq_none_iff] at hvisit
  exact not_reached_of_visit hnodup (hvisit hop hhop) hknown c.tag mem_cons_self hrest

def outboundTo (tag address : String) (chain : List String) : OutboundConfig where
  tag := tag
  address := address
  settings := fun _ => none
  chain := chain

theorem validateChainGraph_iff_unknown_hop :
    validateChainGraph [outboundTo "a" "1" ["b", "x"], outboundTo "b" "2" []] ["b", "a"] = none ↔
      ∀ tag, ¬ TransGen (Linked [outboundTo "a" "1" ["b", "x"], outboundTo "b" "2" []]) tag tag :=
  validateChainGraph_iff _ _ (by decide) (by simp [outboundTo, or_comm])

end Whispera
