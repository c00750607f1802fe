import Mathlib.Data.List.DropRight
import Whispera.ConfigWatch
import Whispera.Lib.Processes
import Whispera.Lib.Strings
import Whispera.Lib.Transition

/-! The checksum is of another configuration while an update is between its two files, or one has replaced it
since the watcher read it. As long as the two keep out of each other's way, the watcher holds the checksum of
the file. -/

namespace Whispera
open List BigEndian Net Processes Transition

def UpdateCall.between (u : UpdateCall) : Bool :=
  match u.pc with
  | .readBack | .store _ => true
  | .save _ | .returned _ => false

def WatchPc.held : WatchPc → Option (List Char)
  | .compare _ sum | .repairStore _ sum => some sum
  | _ => none

namespace ConfigWatch

def Settled (s : ConfigWatch) : Prop := ∀ u ∈ s.updates, u.between = false

instance (s : ConfigWatch) : Decidable s.Settled := inferInstanceAs (Decidable (∀ u ∈ s.updates, _))

/-- A call replaces the configuration only while no other is between its files and the watcher holds no
    checksum, and succeeds. -/
def MayUpdate (s : ConfigWatch) (ok : Bool) : UpdatePc → Prop
  | .save _ => ok = true → s.Settled ∧ s.watcher.held = none
  | .readBack | .store _ => ok = true
  | .returned _ => True

/-- The watcher reads the checksum only while no call is between its files, and its verification does not fail
    on the way. -/
def MayWatch (s : ConfigWatch) (ok : Bool) : WatchPc → Prop
  | .readSum _ => ok = true ∧ (s.checksum = none ∨ s.Settled)
  | .repairRead _ | .repairStore _ _ | .compare _ _ => ok = true
  | _ => True

/-- Calls and the watcher keep out of each other's way. -/
def Undisturbed (s : ConfigWatch) : Act → Prop
  | .begin _ _ => True
  | .update i _ ok => ∀ u ∈ s.updates[i]?, s.MayUpdate ok u.pc
  | .watch ok => s.MayWatch ok s.watcher

instance (s : ConfigWatch) (ok : Bool) (pc) : Decidable (s.MayUpdate ok pc) := by
  unfold MayUpdate
  split <;> infer_instance

instance (s : ConfigWatch) (ok : Bool) (pc) : Decidable (s.MayWatch ok pc) := by
  unfold MayWatch
  split <;> infer_instance

instance (s : ConfigWatch) (act) : Decidable (s.Undisturbed act) := by
  unfold Undisturbed
  split <;> infer_instance

def Current (hmac : Bytes → Bytes) (s : ConfigWatch) (sum : List Char) : Prop :=
  s.config.map (fun c => calculateChecksum hmac c.data) = some sum

/-- Whoever holds a checksum has that of the file. -/
structure Sound (hmac : Bytes → Bytes) (s : ConfigWatch) : Prop where
  config : s.config ≠ none
  stored : ∀ u ∈ s.updates, ∀ sum, u.pc = .store sum → s.Current hmac sum
  settled : s.Settled → ∀ sum, s.checksum = some sum → s.Current hmac sum
  held : ∀ sum, s.watcher.held = some sum → s.Current hmac sum
  alive : ∀ e, s.watcher ≠ .dead e

section
variable {hmac : Bytes → Bytes} {s t : ConfigWatch} {i : Nat} {u : UpdateCall}
variable {pc : UpdatePc} {sum : List Char}

theorem mem_setUpdate {v : UpdateCall} (h : v ∈ (s.setUpdate i u pc).updates) :
    v ∈ s.updates ∨ v = { u with pc := pc } := mem_or_eq_of_mem_set h

theorem mem_setUpdate_self (hu : s.updates[i]? = some u) :
    ({ u with pc := pc } : UpdateCall) ∈ (s.setUpdate i u pc).updates := mem_set_self hu _

theorem settled_of_setUpdate (hu : s.updates[i]? = some u) (hpc : u.between = false)
    (h : (s.setUpdate i u pc).Settled) : s.Settled := by
  intro v hv
  rcases mem_set_of_mem hu hv { u with pc := pc } with rfl | hv
  · exact hpc
  · exact h v hv

theorem Sound.begin (h : s.Sound hmac) (process : Nat) (data : Bytes) :
    Sound hmac { s with updates := s.updates ++ [{ process := process, pc := .save data }] } where
  config := h.config
  stored v hv sum hsum := by
    rcases mem_append.mp hv with hv | hv
    · exact h.stored v hv sum hsum
    · obtain rfl := mem_singleton.mp hv
      cases hsum
  settled hset := h.settled fun v hv => hset v (mem_append_left _ hv)
  held := h.held
  alive := h.alive

theorem Sound.setUpdate_returned (h : s.Sound hmac) (hu : s.updates[i]? = some u) (hpc : u.between = false)
    (ok : Bool) :
    (s.setUpdate i u (.returned ok)).Sound hmac where
  config := h.config
  stored v hv sum hsum := by
    rcases mem_setUpdate hv with hv | rfl
    · exact h.stored v hv sum hsum
    · cases hsum
  settled hset := h.settled (settled_of_setUpdate hu hpc hset)
  held := h.held
  alive := h.alive

theorem Sound.save (h : s.Sound hmac) (hu : s.updates[i]? = some u) (hset : s.Settled) (hheld : s.watcher.held = none)
    (c : ConfigFile) : Sound hmac { s.setUpdate i u .readBack with config := some c } where
  config := Option.some_ne_none c
  stored v hv sum hsum := by
    rcases mem_setUpdate hv with hv | rfl
    · have hbetween := hset v hv
      rw [UpdateCall.between, hsum] at hbetween
      cases hbetween
    · cases hsum
  settled hset' := by
    have hbetween := hset' _ (mem_setUpdate_self hu)
    cases hbetween
  held sum hsum := by
    cases hheld.symm.trans hsum
  alive := h.alive

theorem Sound.readBack (h : s.Sound hmac) (hu : s.updates[i]? = some u) (hsum : s.Current hmac sum) :
    (s.setUpdate i u (.store sum)).Sound hmac where
  config := h.config
  stored v hv sum' hsum' := by
    rcases mem_setUpdate hv with hv | rfl
    · exact h.stored v hv sum' hsum'
    · cases hsum'
      exact hsum
  settled hset := by
    have hbetween := hset _ (mem_setUpdate_self hu)
    cases hbetween
  held := h.held
  alive := h.alive

theorem Sound.store (h : s.Sound hmac) (hsum : s.Current hmac sum) :
    Sound hmac { s.setUpdate i u (.returned true) with checksum := some sum } where
  config := h.config
  stored v hv sum' hsum' := by
    rcases mem_setUpdate hv with hv | rfl
    · exact h.stored v hv sum' hsum'
    · cases hsum'
  settled _ sum' hsum' := by
    cases hsum'
    exact hsum
  held := h.held
  alive := h.alive

theorem Sound.stepUpdate {now : Nat} {ok : Bool} (h : s.Sound hmac) (hu : s.updates[i]? = some u)
    (hp : s.Undisturbed (.update i now ok)) (hs : stepUpdate hmac s i u now ok = some t) : t.Sound hmac := by
  have hp : s.MayUpdate ok u.pc := hp u hu
  rw [ConfigWatch.stepUpdate] at hs
  cases hpc : u.pc with
  | save data =>
    simp only [hpc, MayUpdate] at hs hp
    split at hs <;> cases hs
    · rename_i hok
      obtain ⟨hset, hheld⟩ := hp hok
      exact h.save hu hset hheld _
    · exact h.setUpdate_returned hu (by rw [UpdateCall.between, hpc]) false
  | readBack =>
    simp only [hpc, MayUpdate] at hs hp
    subst hp
    split at hs
    · rename_i sum hsum
      cases hs
      exact h.readBack hu hsum
    · rename_i hnone
      exact absurd (Option.map_eq_none_iff.mp hnone) h.config
  | store sum =>
    simp only [hpc, MayUpdate] at hs hp
    subst hp
    cases hs
    exact h.store (h.stored u (mem_of_getElem? hu) sum hpc)
  | returned r =>
    simp only [hpc] at hs
    cases hs

theorem Sound.setWatcher (h : s.Sound hmac) {pc : WatchPc} (hheld : ∀ sum, pc.held = some sum → s.Current hmac sum)
    (halive : ∀ e, pc ≠ .dead e) : (s.setWatcher pc).Sound hmac where
  config := h.config
  stored := h.stored
  settled := h.settled
  held := hheld
  alive := halive

theorem Sound.moveOn (h : s.Sound hmac) {pc : WatchPc} (hheld : pc.held = none) (halive : ∀ e, pc ≠ .dead e) :
    (s.setWatcher pc).Sound hmac :=
  h.setWatcher (fun sum hsum => by cases hheld.symm.trans hsum) halive

theorem Sound.stepWatch {ok : Bool} (h : s.Sound hmac) (hp : s.Undisturbed (.watch ok))
    (hs : stepWatch hmac s ok = some t) : t.Sound hmac := by
  rw [ConfigWatch.stepWatch] at hs
  have hp : s.MayWatch ok s.watcher := hp
  cases hpc : s.watcher with
  | waiting =>
    simp only [hpc] at hs
    split at hs
    · cases hs
      exact h
    · split at hs <;> cases hs
      · exact h.moveOn rfl nofun
      · exact h
  | verify m | reload m =>
    simp only [hpc] at hs
    split at hs <;> cases hs
    · exact h.moveOn rfl nofun
    · exact h.moveOn rfl nofun
  | readSum m =>
    simp only [hpc, MayWatch] at hs hp
    obtain ⟨rfl, hset⟩ := hp
    rw [if_pos rfl] at hs
    split at hs <;> cases hs
    · exact h.moveOn rfl nofun
    · rename_i saved hsaved
      rcases hset with hnone | hset
      · cases hnone.symm.trans hsaved
      · refine h.setWatcher (fun sum hsum => ?_) nofun
        cases hsum
        exact h.settled hset saved hsaved
  | repairRead m =>
    simp only [hpc, MayWatch] at hs hp
    subst hp
    split at hs
    · rename_i sum hsum
      cases hs
      refine h.setWatcher (fun sum' hsum' => ?_) nofun
      cases hsum'
      exact hsum
    · rename_i hnone
      exact absurd (Option.map_eq_none_iff.mp hnone) h.config
  | repairStore m sum =>
    simp only [hpc, MayWatch] at hs hp
    subst hp
    cases hs
    have hsum : s.Current hmac sum := h.held sum (by rw [hpc]; rfl)
    exact {
      config := h.config
      stored := h.stored
      settled := fun _ sum' hsum' => by
        cases hsum'
        exact hsum
      held := nofun
      alive := nofun }
  | compare m saved =>
    simp only [hpc, MayWatch] at hs hp
    subst hp
    have hsum : s.currentChecksum hmac true = some saved := h.held saved (by rw [hpc]; rfl)
    simp only [hsum, if_true] at hs
    cases hs
    exact h.moveOn rfl nofun
  | setConfig m =>
    simp only [hpc] at hs
    split at hs <;> cases hs
    have hw : (s.setWatcher .waiting).Sound hmac := h.moveOn rfl nofun
    exact ⟨hw.config, hw.stored, hw.settled, hw.held, hw.alive⟩
  | dead e => exact absurd hpc (h.alive e)

theorem Sound.step {act : Act} (h : s.Sound hmac) (hp : s.Undisturbed act) (hs : s.step hmac act = some t) :
    t.Sound hmac := by
  cases act with
  | begin process data =>
    simp only [ConfigWatch.step] at hs
    split at hs <;> cases hs
    exact h.begin process data
  | update i now ok =>
    simp only [ConfigWatch.step] at hs
    split at hs
    · rename_i u hu
      exact h.stepUpdate hu hp hs
    · cases hs
  | watch ok => exact h.stepWatch hp hs

end

def start (config : ConfigFile) (checksum : Option (List Char)) (lastModified : Nat) : ConfigWatch where
  config := some config
  checksum := checksum
  lastModified := lastModified

theorem sound_start {hmac : Bytes → Bytes} {config : ConfigFile} {checksum : Option (List Char)} {lastModified : Nat}
    (h : ∀ sum ∈ checksum, sum = calculateChecksum hmac config.data) :
    (start config checksum lastModified).Sound hmac where
  config := Option.some_ne_none config
  stored u hu := absurd hu not_mem_nil
  settled _ sum hsum := by
    obtain rfl := h sum hsum
    rfl
  held sum hsum := by cases hsum
  alive e he := by cases he

end ConfigWatch

open ConfigWatch

/-- The watcher does not end the server, as long as an update replaces the configuration only while no other
    one is between its files and the watcher holds no checksum, the watcher reads the checksum only while no
    update is between its files, and their file operations succeed. -/
theorem updates_never_kill (hmac : Bytes → Bytes) (config : ConfigFile) (checksum : Option (List Char))
    (lastModified : Nat) (hsum : ∀ sum ∈ checksum, sum = calculateChecksum hmac config.data) (acts : List Act)
    (s : ConfigWatch) (hrun : Run (ConfigWatch.step hmac) Undisturbed (start config checksum lastModified) acts s) :
    ∀ e, s.watcher ≠ .dead e :=
  (hrun.invariant Sound.step (sound_start hsum)).alive

def quietConfig : Bytes := Strings.bytes "relay:\n  debug: false\n"
def debugConfig : Bytes := Strings.bytes "relay:\n  debug: true\n"

def configHmac (data : Bytes) : Bytes :=
  if data = quietConfig then
    put 32 0xcc9f76e017fb42c5d0e8b92f8ecd190ec2a7de5c840f2b010ee404a88a4ec4e7
  else if data = debugConfig then
    put 32 0x89cd15be2593aa878fb070b3d408bcb61ff4e944bfd9f3990a6add35052422e8
  else []

def quietStart : ConfigWatch :=
  start { data := quietConfig, modTime := 100 } (some (calculateChecksum configHmac quietConfig)) 100

def politeActs : List Act :=
  [.begin 1 debugConfig, .update 0 200 true, .update 0 200 true, .update 0 200 true, .watch true, .watch true,
   .watch true, .watch true, .begin 0 quietConfig, .update 1 300 true, .update 1 300 true, .update 1 300 true,
   .watch true, .watch true]

theorem updates_never_kill_polite : ∃ s, Run (ConfigWatch.step configHmac) Undisturbed quietStart politeActs s ∧
    s.lastModified = 200 ∧ s.config = some { data := quietConfig, modTime := 300 } ∧ ∀ e, s.watcher ≠ .dead e := by
  refine Run.exists_of_exec (Q := fun s => s.lastModified = 200 ∧
    s.config = some { data := quietConfig, modTime := 300 })
    (by decide +kernel) fun s hrun hs => ⟨hs.1, hs.2, updates_never_kill configHmac _ _ _ ?_ _ s hrun⟩
  intro sum hsum
  cases hsum
  rfl

/-- The watcher looks when an update has replaced the configuration and not yet its checksum. -/
theorem update_kills : ∃ s, AnyRun (ConfigWatch.step configHmac) quietStart
      [.begin 0 debugConfig, .update 0 200 true, .watch true, .watch true, .watch true, .watch true] s ∧
    s.watcher =
      .dead (.mismatch (calculateChecksum configHmac quietConfig) (calculateChecksum configHmac debugConfig)) :=
  AnyRun.exists_of_exec (by decide +kernel)

namespace Provider
variable {α : Type} (hmac : Bytes → Bytes) (marshal : α → Bytes) (p : Provider α)
variable (reached : Option SaveFault → Bool) (us : List ((α → α) × Option SaveFault))

def updates : Provider α := us.foldl (fun p u => (p.update hmac marshal u.1 u.2).1) p

def configAfter : α := us.foldl (fun config u => u.1 config) p.config

/-- What was to be written by the last save that got far enough. -/
def lastData : Option Bytes :=
  let saved := us.rdropWhile fun u => p.configPath = "" || !reached u.2
  if saved.isEmpty then none else some (marshal (p.configAfter saved))

theorem lastData_concat (u : (α → α) × Option SaveFault) : p.lastData marshal reached (us ++ [u]) =
    if p.configPath = "" || !reached u.2 then p.lastData marshal reached us
    else some (marshal (p.configAfter (us ++ [u]))) := by
  rw [lastData, rdropWhile_concat]
  split
  · rfl
  · simp

/-- An update that fails is not taken back, and the next save that succeeds writes it too. -/
theorem updates_eq : p.updates hmac marshal us =
    { p with
      config := p.configAfter us
      file := p.lastData marshal (· ∉ [some .marshal, some .mkdir, some .write]) us <|> p.file
      checksum := (p.lastData marshal Option.isNone us).map (ConfigWatch.calculateChecksum hmac) <|> p.checksum } := by
  induction us using reverseRecOn with
  | nil => rfl
  | append_singleton us u ih =>
    obtain ⟨fn, fault⟩ := u
    have hconfig : p.configAfter (us ++ [(fn, fault)]) = fn (p.configAfter us) := foldl_concat ..
    rw [updates, foldl_concat, ← updates, ih, lastData_concat, lastData_concat, hconfig]
    by_cases hpath : p.configPath = ""
    · simp [update, hpath]
    · cases fault with
      | none => simp [update, hpath]
      | some f => cases f <;> simp [update, hpath]

end Provider

end Whispera
