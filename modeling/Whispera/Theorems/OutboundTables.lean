import Whispera.Theorems.ChainGraph

/-! `AddOutbound` stores the configuration before it makes the manager, which cannot fail. -/

namespace Whispera
open List

namespace OutboundTables
variable {om : OutboundTables}

/-- Every manager was made from the stored configuration, and there are no others. -/
def InStep (om : OutboundTables) : Prop := ∀ tag, om.outboundCfgs.lookup tag = om.outbounds.lookup tag

theorem lookup_insert (m : Table.Map String OutboundConfig) (cfg : OutboundConfig) (tag : String) :
    (m.insert cfg.tag cfg).lookup tag = if cfg.tag == tag then some cfg else m.lookup tag := by
  by_cases h : tag = cfg.tag
  · rw [h, AList.lookup_insert, beq_self_eq_true, if_pos rfl]
  · rw [AList.lookup_insert_ne h, if_neg (by simpa using Ne.symm h)]

theorem startManager_ok : ∃ m, startManager = .ok m := ⟨_, rfl⟩

theorem addOutbound_eq (om : OutboundTables) (cfg : OutboundConfig) : (om.addOutbound cfg).1 =
    if (om.outbounds.lookup cfg.tag).isSome then om
    else { outbounds := om.outbounds.insert cfg.tag cfg, outboundCfgs := om.outboundCfgs.insert cfg.tag cfg } := by
  obtain ⟨m, hm⟩ := startManager_ok
  rw [addOutbound, hm]
  split <;> rfl

theorem lookup_addOutbound (om : OutboundTables) (cfg : OutboundConfig) (tag : String) :
    (om.addOutbound cfg).1.outbounds.lookup tag =
    (om.outbounds.lookup tag).or (if cfg.tag == tag then some cfg else none) := by
  rw [addOutbound_eq]
  split
  · rename_i hsome
    split
    · rename_i heq
      obtain ⟨c, hc⟩ := Option.isSome_iff_exists.mp hsome
      rw [← beq_iff_eq.mp heq, hc, Option.some_or]
    · rw [Option.or_none]
  · rename_i hnone
    rw [lookup_insert]
    split
    · rename_i heq
      rw [← beq_iff_eq.mp heq, Option.not_isSome_iff_eq_none.mp hnone, Option.none_or]
    · rw [Option.or_none]

theorem InStep.addOutbound (h : om.InStep) (cfg : OutboundConfig) : (om.addOutbound cfg).1.InStep := by
  intro tag
  rw [addOutbound_eq]
  split
  · exact h tag
  · rw [lookup_insert, lookup_insert, h tag]

theorem addMissing_cons (om : OutboundTables) (c : OutboundConfig) (configs : List OutboundConfig) :
    om.addMissing (c :: configs) = (om.addOutbound c).1.addMissing configs := by
  rw [addMissing, addMissing, foldl_cons, addOutbound_eq]
  congr 1
  split <;> rfl

theorem InStep.addMissing (h : om.InStep) (configs : List OutboundConfig) : (om.addMissing configs).InStep := by
  induction configs generalizing om with
  | nil => exact h
  | cons c configs ih =>
    rw [addMissing_cons]
    exact ih (h.addOutbound c)

theorem lookup_addMissing (om : OutboundTables) (configs : List OutboundConfig) (tag : String) :
    (om.addMissing configs).outbounds.lookup tag = (om.outbounds.lookup tag).or (configs.find? (·.tag == tag)) := by
  induction configs generalizing om with
  | nil => exact (Option.or_none).symm
  | cons c configs ih =>
    rw [addMissing_cons, ih, lookup_addOutbound, Option.or_assoc, find?_cons]
    cases c.tag == tag <;> rfl

theorem InStep.removeOthers (h : om.InStep) (current : String → Bool) : (om.removeOthers current).InStep := by
  intro tag
  rw [OutboundTables.removeOthers, Table.lookup_filter, Table.lookup_filter, h tag]
  cases om.outbounds.lookup tag with
  | none => rfl
  | some c => rw [Option.isNone_some, Bool.or_false]

theorem InStep.call (h : om.InStep) (c : Call) : (om.call c).InStep := by
  cases c with
  | addOutbound cfg => exact h.addOutbound cfg
  | updateOutbounds configs order =>
    rw [OutboundTables.call, updateOutbounds]
    split
    · exact h
    · exact (h.addMissing configs).removeOthers _

/-- There is a stored configuration just for every manager. -/
theorem tables_in_step (calls : List Call) (tag : String) :
    tag ∈ (calls.foldl call {}).outboundCfgs ↔ tag ∈ (calls.foldl call {}).outbounds := by
  have hin : ∀ om : OutboundTables, om.InStep → (calls.foldl call om).InStep := by
    induction calls with
    | nil => exact fun om hom => hom
    | cons c calls ih => exact fun om hom => ih _ (hom.call c)
  rw [← AList.lookup_isSome, ← AList.lookup_isSome, hin {} (fun _ => rfl) tag]

/-- Two outbounds are added, and the update leaves one of them. -/
def addedAndRemoved : List Call :=
  [.addOutbound (outboundTo "a" "1" []), .addOutbound (outboundTo "b" "2" []),
   .updateOutbounds [outboundTo "b" "2" []] ["b"]]

theorem tables_in_step_removed : "a" ∉ (addedAndRemoved.foldl call {}).outboundCfgs ∧
    "b" ∈ (addedAndRemoved.foldl call {}).outboundCfgs := by
  have hvalid : validateChainGraph [outboundTo "b" "2" []] ["b"] = none := by
    rw [validateChainGraph, findSome?_cons, visit]
    rfl
  rw [tables_in_step, tables_in_step, AList.mem_keys, AList.mem_keys]
  simp only [addedAndRemoved, foldl_cons, foldl_nil, call, updateOutbounds, hvalid]
  decide

/-- A valid list leaves the outbounds of its tags. One that was there before keeps the configuration that it
    had. -/
theorem lookup_updateOutbounds (om : OutboundTables) (configs : List OutboundConfig) (order : List String)
    (h : validateChainGraph configs order = none) (tag : String) :
    (om.updateOutbounds configs order).outbounds.lookup tag =
      (configs.find? (·.tag == tag)).map fun c => (om.outbounds.lookup tag).getD c := by
  have hany : (configs.any fun c => c.tag == tag) = (configs.find? (·.tag == tag)).isSome := isSome_find?.symm
  rw [updateOutbounds, h]
  simp only [removeOthers, Table.lookup_filter, lookup_addMissing, hany]
  cases om.outbounds.lookup tag <;> cases configs.find? (·.tag == tag) <;> rfl

theorem lookup_updateOutbounds_kept : ((addOutbound {} (outboundTo "a" "1" [])).1.updateOutbounds
      [outboundTo "a" "2" []] ["a"]).outbounds.lookup "a" = some (outboundTo "a" "1" []) :=
  lookup_updateOutbounds _ [outboundTo "a" "2" []] ["a"] (by rw [validateChainGraph, findSome?_cons, visit]; rfl) "a"

end OutboundTables
end Whispera
