import Whispera.DiskStreams
import Whispera.Theorems.Selector
import Whispera.Theorems.YaDisk

/-! Every transport of a manager counts its chunks from zero in the directory of the session. So no path is
used twice as long as one transport alone comes to write. -/

namespace Whispera
open List BigEndian Option Transition Processes YaDisk

namespace YaDisk.Transport
variable {t t' : Transport} {act : Act}

/-- The transport has written nothing and never will: its connection was not taken, or its send loop has
    ended. -/
def Silent (t : Transport) : Prop := t.writeSeq = 0 ∧ (t.connCh = true ∨ t.sendLoop = .ended)

def Untouched (t : Transport) : Prop := t.connCh = true → t.offered = [] ∧ t.writing = []

theorem Untouched.step (h : t.Untouched) (hs : t.step act = some t') : t'.Untouched := by
  cases step_inv hs with
  | accept _ => exact fun hconn => Bool.noConfusion hconn
  | write hconn => exact fun hconn' => Bool.noConfusion (hconn.symm.trans hconn')
  | offer hwriting => exact fun hconn => absurd (h hconn).2 hwriting
  | writeStop => exact fun hconn => ⟨(h hconn).1, rfl⟩
  | _ => exact h

theorem Sends.not_silent {path : Path} {data : Bytes} (h : t.Sends)
    (hpc : t.sendLoop = .putting path data ∨ t.sendLoop = .waiting path data) : ¬ t.Silent := by
  intro hsilent
  obtain ⟨k, hk, -⟩ := h.current path data hpc
  rw [hsilent.1] at hk
  exact Nat.not_lt_zero k hk

theorem Silent.step (h : t.Silent) (hsends : t.Sends) (huntouched : t.Untouched) (hs : t.step act = some t')
    (hact : act ≠ .accept) : t'.Silent := by
  cases step_inv hs with
  | accept _ => exact absurd rfl hact
  | @send data rest hidle hdata =>
    rcases h.2 with hconn | hended
    · have hqueue := hsends.queue
      rw [(huntouched hconn).1, drop_nil, hdata] at hqueue
      cases hqueue
    · rw [hidle] at hended
      cases hended
  | retry hwait => exact absurd h (hsends.not_silent (.inr hwait))
  | sendStop => exact ⟨h.1, .inr rfl⟩
  | _ => exact h

/-- A client's transport that has not yet read or written. -/
structure Fresh (cfg : Config) (t : Transport) : Prop where
  config : t.config = cfg
  writeDir : t.writeDir = c2sDir cfg.sessionID
  readDir : t.readDir = s2cDir cfg.sessionID
  received : t.received = []
  sends : t.Sends
  receives : t.Receives
  untouched : t.Untouched

theorem Fresh.step {cfg : Config} (h : Fresh cfg t) (hs : t.step act = some t') : Fresh cfg t' := by
  obtain ⟨hg, hreceived, -⟩ := step_grows hs
  exact ⟨hg.config.trans h.config, hg.writeDir.trans h.writeDir, hg.readDir.trans h.readDir, hreceived.trans h.received,
    h.sends.step hs, h.receives.step hs, h.untouched.step hs⟩

end YaDisk.Transport

namespace DiskManager
open YaDisk.Transport

section
variable {crypto : Crypto} {cfg : Config} {psk : Bytes} {s s' : DiskManager} {t t' : Transport}
  {sessionID : Block altTransportSessionIDLen} {now : Int} {ok : Bool} {old : Path → Option Bytes}

theorem yadiskDial_spec (hmode : cfg.serverMode = false) (h : yadiskDial cfg = some t) : Fresh cfg t ∧ t.Silent := by
  have hstarted := start_spec h
  have hdirs := hstarted.dirs
  rw [hmode, if_neg Bool.false_ne_true, Prod.mk.injEq] at hdirs
  exact ⟨⟨hstarted.config, hdirs.1, hdirs.2, hstarted.received, hstarted.sends, hstarted.receives,
    fun _ => ⟨hstarted.offered, hstarted.writing⟩⟩, hstarted.writeSeq, .inl hstarted.connCh⟩

theorem call_fresh (h : Fresh cfg t) (hcall : call crypto psk t sessionID now = some (ok, t')) : Fresh cfg t' := by
  rw [call, bind_eq_some_iff] at hcall
  obtain ⟨t1, h1, hcall⟩ := hcall
  have hfresh := h.step h1
  split at hcall
  · obtain ⟨t2, h2, heq⟩ := map_eq_some_iff.mp hcall
    cases heq
    exact hfresh.step h2
  · obtain ⟨t2, h2, hcall⟩ := bind_eq_some_iff.mp hcall
    obtain ⟨t3, h3, heq⟩ := map_eq_some_iff.mp hcall
    cases heq
    exact (hfresh.step h2).step h3

theorem disk_step_transport {d d' : Disk} {act : Disk.Act} (hs : d.step act = some d') {m : Nat} {u' : Transport}
    (hu' : d'.transports[m]? = some u') : ∃ u, d.transports[m]? = some u ∧ (u.Untouched → u'.Untouched) ∧
      (act ≠ .go m .accept → u.Sends → u.Untouched → u.Silent → u'.Silent) := by
  rcases Disk.step_transports hs with heq | ⟨i, t, t', hi, heq, -, hmove⟩
  · rw [heq] at hu'
    exact ⟨u', hu', id, fun _ _ _ => id⟩
  · rw [heq] at hu'
    rcases get_set_cases hi hu' with ⟨rfl, rfl⟩ | ⟨-, hother⟩
    · refine ⟨t, hi, ?_⟩
      rcases hmove with ⟨a, rfl, ha⟩ | ⟨path, data, pc, hpc, rfl⟩ | ⟨data, rfl⟩
      · refine ⟨fun h => h.step ha, fun hact hsends huntouched hsilent =>
          hsilent.step hsends huntouched ha fun hacc => ?_⟩
        exact hact (by rw [hacc])
      · exact ⟨id, fun _ hsends _ hsilent => absurd hsilent (hsends.not_silent (.inl hpc))⟩
      · exact ⟨id, fun _ _ _ => id⟩
    · exact ⟨u', hother, id, fun _ _ _ => id⟩

theorem sound_add (h : s.disk.Sound old) (ht : Fresh cfg t) : (s.add t).disk.Sound old := by
  have hmem : ∀ u ∈ (s.add t).disk.transports, u ∈ s.disk.transports ∨ u = t := fun u hu => by
    simpa [add] using hu
  refine ⟨fun u hu => ?_, fun u hu => ?_, fun e he => ?_, h.files, fun u hu k data hk => ?_⟩
  · rcases hmem u hu with hu | rfl
    · exact h.sends u hu
    · exact ht.sends
  · rcases hmem u hu with hu | rfl
    · exact h.receives u hu
    · exact ht.receives
  · obtain ⟨u, hu, hnum⟩ := h.puts e he
    exact ⟨u, get_append_left hu [t], hnum⟩
  · rcases hmem u hu with hu | rfl
    · exact h.received u hu k data hk
    · rw [ht.received] at hk
      cases hk

/-- The transports are those of the server, at 0, and of the manager; all but one of the manager's are silent.
    -/
structure Single (old : Path → Option Bytes) (server cfg : Config) (s : DiskManager) : Prop where
  sound : s.disk.Sound old
  untouched : ∀ t ∈ s.disk.transports, t.Untouched
  places : ∃ n, s.disk.places = (server, s2cDir cfg.sessionID, c2sDir cfg.sessionID) ::
    replicate n (cfg, c2sDir cfg.sessionID, s2cDir cfg.sessionID)
  single : ∀ i j t u, s.disk.transports[i + 1]? = some t → s.disk.transports[j + 1]? = some u → i ≠ j →
    t.Silent ∨ u.Silent

variable {server : Config}

theorem Single.disk_step {act : Disk.Act} {d : Disk} (h : s.Single old server cfg) (hs : s.disk.step act = some d)
    (hact : ∀ i, act ≠ .go (i + 1) .accept) (idle : List Nat) : Single old server cfg { disk := d, idle := idle } := by
  refine ⟨h.sound.step hs, fun t ht => ?_, ?_, fun i j t u ht hu hij => ?_⟩
  · obtain ⟨m, hm⟩ := getElem?_of_mem ht
    obtain ⟨t0, ht0, huntouched, -⟩ := disk_step_transport hs hm
    exact huntouched (h.untouched t0 (mem_of_getElem? ht0))
  · obtain ⟨n, hn⟩ := h.places
    exact ⟨n, (Disk.places_step hs).trans hn⟩
  · obtain ⟨t0, ht0, -, hsilent⟩ := disk_step_transport hs ht
    obtain ⟨u0, hu0, -, hsilent'⟩ := disk_step_transport hs hu
    have ht0' := mem_of_getElem? ht0
    have hu0' := mem_of_getElem? hu0
    exact (h.single i j t0 u0 ht0 hu0 hij).imp
      (hsilent (hact i) (h.sound.sends t0 ht0') (h.untouched t0 ht0'))
      (hsilent' (hact j) (h.sound.sends u0 hu0') (h.untouched u0 hu0'))

theorem Single.add (h : s.Single old server cfg) (ht : Fresh cfg t)
    (hsilent : t.Silent ∨ ∀ i u, s.disk.transports[i + 1]? = some u → u.Silent) : (s.add t).Single old server cfg := by
  obtain ⟨n, hn⟩ := h.places
  have hlen : s.disk.transports.length = n + 1 := by
    have := congrArg length hn
    simpa [Disk.places] using this
  -- a transport of the manager is the new one or an old one
  have hcases : ∀ i u, (s.add t).disk.transports[i + 1]? = some u →
      (i = n ∧ u = t) ∨ s.disk.transports[i + 1]? = some u := by
    intro i u hu
    rcases get_begin_cases hu with hu | ⟨hi, rfl⟩
    · exact .inr hu
    · exact .inl ⟨by omega, rfl⟩
  refine ⟨sound_add h.sound ht, fun u hu => ?_, ⟨n + 1, ?_⟩, fun i j u v hu hv hij => ?_⟩
  · rcases mem_append.mp hu with hu | hu
    · exact h.untouched u hu
    · rw [mem_singleton.mp hu]
      exact ht.untouched
  · rw [DiskManager.add, Disk.places, map_append, ← Disk.places, hn, cons_append, replicate_succ']
    simp [ht.config, ht.writeDir, ht.readDir]
  · rcases hcases i u hu with ⟨rfl, rfl⟩ | hold
    · rcases hcases j v hv with ⟨rfl, rfl⟩ | hold'
      · exact absurd rfl hij
      · exact hsilent.imp_right fun hall => hall j v hold'
    · rcases hcases j v hv with ⟨rfl, rfl⟩ | hold'
      · exact hsilent.symm.imp_left fun hall => hall i u hold
      · exact h.single i j u v hold hold' hij

def Dials : Act → Prop
  | .connect _ _ _ | .muxDial _ _ => True
  | .openStream .fresh _ _ _ | .openStream (.parked _ false) _ _ _ => True
  | .openStream (.parked _ true) _ _ _ | .park _ | .disk _ => False

/-- The manager dials only as long as none of its transports has written a chunk or may still do so. -/
def Alone (s : DiskManager) (act : Act) : Prop :=
  Dials act → ∀ t ∈ s.disk.transports, t.config.serverMode = false → t.Silent

theorem Single.client (h : s.Single old server cfg) {i : Nat} (hi : s.disk.transports[i + 1]? = some t) :
    t.config = cfg ∧ t.writeDir = c2sDir cfg.sessionID ∧ t.readDir = s2cDir cfg.sessionID := by
  obtain ⟨n, hn⟩ := h.places
  have hplace : s.disk.places[i + 1]? = some (t.config, t.writeDir, t.readDir) := by
    rw [Disk.places, getElem?_map, hi, map_some]
  rw [hn, getElem?_cons_succ, getElem?_replicate] at hplace
  split at hplace
  · have := some.inj hplace
    simp only [Prod.mk.injEq] at this
    exact ⟨this.1.symm, this.2.1.symm, this.2.2.symm⟩
  · cases hplace

theorem Single.server_place (h : s.Single old server cfg) : ∃ v, s.disk.transports[0]? = some v ∧ v.config = server ∧
    v.writeDir = s2cDir cfg.sessionID ∧ v.readDir = c2sDir cfg.sessionID := by
  obtain ⟨n, hn⟩ := h.places
  obtain ⟨v, rest, hv, hplace, -⟩ := map_eq_cons_iff.mp hn
  simp only [Prod.mk.injEq] at hplace
  exact ⟨v, by rw [hv]; rfl, hplace⟩

theorem Single.openFresh {header : Bytes} (h : s.Single old server cfg) (ht : Fresh cfg t)
    (hsilent : ∀ i u, s.disk.transports[i + 1]? = some u → u.Silent)
    (hs : s.openFresh crypto psk t sessionID now header = some s') : s'.Single old server cfg := by
  obtain ⟨⟨ok, t1⟩, hcall, hs⟩ := bind_eq_some_iff.mp hs
  have ht1 := call_fresh ht hcall
  cases ok with
  | false =>
    cases hs
    exact h.add ht1 (.inr hsilent)
  | true =>
    obtain ⟨t2, h2, rfl⟩ := map_eq_some_iff.mp hs
    exact h.add (ht1.step h2) (.inr hsilent)

theorem Single.step {act : Act} (hmode : cfg.serverMode = false) (h : s.Single old server cfg) (ha : s.Alone act)
    (hs : s.step crypto cfg psk act = some s') : s'.Single old server cfg := by
  have hsilent : Dials act → ∀ i u, s.disk.transports[i + 1]? = some u → u.Silent := fun hdials i u hu =>
    ha hdials u (mem_of_getElem? hu) (by rw [(h.client hu).1, hmode])
  cases act with
  | connect sessionID now park =>
    simp only [DiskManager.step] at hs
    split at hs
    · cases hs
      exact h
    · rename_i t ht
      obtain ⟨⟨ok, t1⟩, hcall, hs⟩ := bind_eq_some_iff.mp hs
      have ht1 := call_fresh (yadiskDial_spec hmode ht).1 hcall
      split at hs
      · cases hs
        have hadd := h.add ht1 (.inr (hsilent trivial))
        exact ⟨hadd.sound, hadd.untouched, hadd.places, hadd.single⟩
      · obtain ⟨t2, h2, rfl⟩ := map_eq_some_iff.mp hs
        exact h.add (ht1.step h2) (.inr (hsilent trivial))
  | openStream source sessionID now header =>
    simp only [DiskManager.step] at hs
    split at hs
    · cases hs
      exact h
    · rename_i t ht
      obtain ⟨hfresh, hquiet⟩ := yadiskDial_spec hmode ht
      cases source with
      | fresh => exact h.openFresh hfresh (hsilent trivial) hs
      | parked i alive =>
        simp only at hs
        split at hs
        · cases hs
        · cases alive with
          | true =>
            obtain ⟨d, hd, rfl⟩ := map_eq_some_iff.mp hs
            exact (h.disk_step hd (fun j => by simp) _).add hfresh (.inl hquiet)
          | false =>
            obtain ⟨d, hd, hs⟩ := bind_eq_some_iff.mp hs
            refine (h.disk_step hd (fun j => by simp) _).openFresh hfresh (fun j u hu => ?_) hs
            obtain ⟨u0, hu0, -, hstill⟩ := disk_step_transport hd hu
            have hmem := mem_of_getElem? hu0
            exact hstill (by simp) (h.sound.sends u0 hmem) (h.untouched u0 hmem) (hsilent trivial j u0 hu0)
  | muxDial sessionID now =>
    simp only [DiskManager.step] at hs
    split at hs
    · cases hs
      exact h
    · rename_i t ht
      obtain ⟨⟨ok, t1⟩, hcall, rfl⟩ := map_eq_some_iff.mp hs
      exact h.add (call_fresh (yadiskDial_spec hmode ht).1 hcall) (.inr (hsilent trivial))
  | park i =>
    simp only [DiskManager.step] at hs
    split at hs
    · split at hs <;> cases hs
      exact ⟨h.sound, h.untouched, h.places, h.single⟩
    · cases hs
  | disk act =>
    simp only [DiskManager.step, diskStep] at hs
    split at hs
    · cases hs
    · rename_i hne
      obtain ⟨d, hd, rfl⟩ := map_eq_some_iff.mp hs
      exact h.disk_step hd hne s.idle

section
variable (h : s.Single old server cfg)
include h

theorem Single.server_path_ne {v : Transport} (hv : s.disk.transports[0]? = some v) {i : Nat}
    (hi : s.disk.transports[i + 1]? = some t) (k k' : Nat) : filePath t.writeDir k ≠ filePath v.writeDir k' := by
  obtain ⟨v', hv', -, hwrite, -⟩ := h.server_place
  obtain rfl := some.inj (hv.symm.trans hv')
  rw [hwrite, (h.client hi).2.1]
  exact fun hpath => c2sDir_ne_s2cDir cfg.sessionID (filePath_inj (length_c2sDir cfg.sessionID) hpath).1

theorem Single.owner_inj {i j k k' : Nat} (hi : s.disk.transports[i]? = some t)
    (hj : s.disk.transports[j]? = some t') (hk : k < t.writeSeq) (hk' : k' < t'.writeSeq)
    (hpath : filePath t.writeDir k = filePath t'.writeDir k') : i = j ∧ k = k' := by
  cases i with
  | zero =>
    cases j with
    | zero =>
      obtain rfl := some.inj (hi.symm.trans hj)
      exact ⟨rfl, (filePath_inj rfl hpath).2⟩
    | succ j => exact absurd hpath.symm (h.server_path_ne hi hj k' k)
  | succ i =>
    cases j with
    | zero => exact absurd hpath (h.server_path_ne hj hi k k')
    | succ j =>
      rw [(h.client hi).2.1, (h.client hj).2.1] at hpath
      refine ⟨?_, (filePath_inj rfl hpath).2⟩
      -- of two transports, one has written nothing
      by_contra hij
      rcases h.single i j t t' hi hj (fun heq => hij (by rw [heq])) with hsilent | hsilent
      · rw [hsilent.1] at hk
        exact Nat.not_lt_zero k hk
      · rw [hsilent.1] at hk'
        exact Nat.not_lt_zero k' hk'

theorem Single.puts_inj {e e' : Put} (he : e ∈ s.disk.puts) (he' : e' ∈ s.disk.puts)
    (hpath : e.path = e'.path) : e = e' := by
  obtain ⟨t, ht, k, hk, hek, hdata⟩ := h.sound.puts e he
  obtain ⟨t', ht', k', hk', hek', hdata'⟩ := h.sound.puts e' he'
  obtain ⟨howner, rfl⟩ := h.owner_inj ht ht' hk hk' (hek.symm.trans (hpath.trans hek'))
  rw [howner] at ht
  obtain rfl : t = t' := some.inj (ht.symm.trans ht')
  rw [Put.mk.injEq]
  exact ⟨howner, hpath, some.inj (hdata.symm.trans hdata')⟩

end

theorem paths_are_used_once (cfg server : Config) (hmode : cfg.serverMode = false) (hserver : server.serverMode = true)
    (hsession : server.sessionID = cfg.sessionID) {v0 : Transport} (hv0 : (new server).start = some v0)
    {files : Path → Option Bytes} (hfiles : ∀ k, files (filePath (c2sDir cfg.sessionID) k) = none) {acts : List Act}
    (hrun : Run (step crypto cfg psk) Alone { disk := { transports := [v0], files := files } } acts s) :
    (∀ e ∈ s.disk.puts, ∀ e' ∈ s.disk.puts, e.path = e'.path → e = e') ∧
    ∃ v, s.disk.transports[0]? = some v ∧ ∀ e ∈ s.disk.puts, ∀ k data, v.received[k]? = some data →
      e.path = filePath (c2sDir cfg.sessionID) k → e.data = data := by
  have hstarted := start_spec hv0
  have hdirs := hstarted.dirs
  rw [hserver, if_pos rfl, Prod.mk.injEq, hsession] at hdirs
  have hsingle : s.Single files server cfg := by
    refine hrun.invariant (fun h ha hs => h.step hmode ha hs) ⟨?_, ?_, ⟨0, ?_⟩, ?_⟩
    · exact Disk.sound_start fun t ht => ⟨server, by rw [mem_singleton.mp ht]; exact hstarted⟩
    · intro t ht
      rw [mem_singleton.mp ht]
      exact fun _ => ⟨hstarted.offered, hstarted.writing⟩
    · simp [Disk.places, hstarted.config, hdirs]
    · intro i j t u ht
      cases ht
  refine ⟨fun e he e' he' => hsingle.puts_inj he he', ?_⟩
  obtain ⟨v, hv, -, -, hread⟩ := hsingle.server_place
  refine ⟨v, hv, fun e he k data hk hpath => ?_⟩
  rcases hsingle.sound.received v (mem_of_getElem? hv) k data hk with ⟨was, hold⟩ | ⟨e', he', hpath', rfl⟩
  · rw [hread, hfiles k] at hold
    cases hold
  · rw [hread] at hpath'
    rw [hsingle.puts_inj he he' (hpath.trans hpath'.symm)]

end

instance : DecidablePred Silent := fun _ => inferInstanceAs (Decidable (_ ∧ _))

instance : DecidablePred Dials
  | .connect _ _ _ | .muxDial _ _ | .openStream .fresh _ _ _ | .openStream (.parked _ false) _ _ _ => .isTrue trivial
  | .openStream (.parked _ true) _ _ _ | .park _ | .disk _ => .isFalse id

instance (s : DiskManager) (act : Act) : Decidable (s.Alone act) := inferInstanceAs (Decidable (_ → _))

def sampleSession (first : UInt8) : Block altTransportSessionIDLen :=
  ⟨(range 8).map fun i => first + UInt8.ofNat i, by simp [altTransportSessionIDLen]⟩

def loginCrypto : Crypto := .ofTables
  [((replicate 32 7, windowBytes 56666667 ++ (sampleSession 1).val),
      put 32 0x8b9297cb8f90126b9876d1336d3737a94e7906ca8da98c1904c800c5c139d0e0),
    ((replicate 32 7, windowBytes 56666667 ++ (sampleSession 11).val),
      put 32 0xf8a38e6c72312a10f54d4f02496a32d8e2acd8823c41b462d625b49fb54cc961)] [] [] [] []

def sampleLogin (first : UInt8) : Bytes :=
  AltLogin.header ⟨(sampleSession first).val, authToken loginCrypto (replicate 32 7) 56666667 (sampleSession first).val⟩

def sampleHeader : Bytes := [6, 0, 1, 97, 0, 80]

def sampleStart : DiskManager := { disk := { transports := [diskTransport true], files := fun _ => none } }

/-- A filler record without padding. -/
def sampleFiller : Bytes := [23, 3, 3, 0, 2, 255, 254]

/-- The connection of the connect is parked, and a filler is written to it when the server has read its login.
    -/
def parkedRun : List Act :=
  [.connect (sampleSession 1) 1700000010 true, .disk (.go 1 .send), .disk (.put 1 true true), .disk (.get 0 true),
    .disk (.go 1 (.write sampleFiller)), .disk (.go 1 .offer), .disk (.go 1 .send), .disk (.put 1 true true),
    .disk (.go 0 .hand), .disk (.get 0 true)]

theorem parked_connection_uses_paths_once : ∃ s,
    Run (step loginCrypto (diskConfig false) (replicate 32 7)) Alone sampleStart parkedRun s ∧
    s.disk.puts = [⟨1, filePath (c2sDir ['s', '1']) 0, sampleLogin 1⟩,
      ⟨1, filePath (c2sDir ['s', '1']) 1, sampleFiller⟩] ∧
    (∀ e ∈ s.disk.puts, ∀ e' ∈ s.disk.puts, e.path = e'.path → e = e') ∧
    ∃ v, s.disk.transports[0]? = some v ∧ ∀ e ∈ s.disk.puts, ∀ k data, v.received[k]? = some data →
      e.path = filePath (c2sDir ['s', '1']) k → e.data = data := by
  refine Run.exists_of_exec ?_ fun s hrun hs =>
    ⟨hs, paths_are_used_once (diskConfig false) (diskConfig true) rfl rfl rfl rfl
    (fun _ => rfl) hrun⟩
  decide +kernel

/-- The connection of the connect is closed when the server has read its login, and a stream is opened on a
    new one. -/
def reopenedRun : List Act :=
  [.connect (sampleSession 1) 1700000010 false, .disk (.go 1 .send), .disk (.put 1 true true), .disk (.get 0 true),
    .disk (.go 1 .sendStop), .openStream .fresh (sampleSession 11) 1700000010 sampleHeader, .disk (.go 2 .send),
    .disk (.put 2 true true)]

theorem paths_are_used_twice : sampleLogin 1 ≠ sampleLogin 11 ∧ ∃ s,
    AnyRun (step loginCrypto (diskConfig false) (replicate 32 7)) sampleStart reopenedRun s ∧
    s.disk.puts = [⟨1, filePath (c2sDir ['s', '1']) 0, sampleLogin 1⟩,
      ⟨2, filePath (c2sDir ['s', '1']) 0, sampleLogin 11⟩] ∧
    ∃ v, s.disk.transports[0]? = some v ∧ v.received = [sampleLogin 1] :=
  ⟨by decide +kernel, Run.exists_of_exec
   (Q := fun s => s.disk.puts = [⟨1, filePath (c2sDir ['s', '1']) 0, sampleLogin 1⟩,
    ⟨2, filePath (c2sDir ['s', '1']) 0, sampleLogin 11⟩] ∧ ∃ v ∈ s.disk.transports[0]?, v.received = [sampleLogin 1])
    (by decide +kernel) fun _ _ hs => hs⟩

end DiskManager

end Whispera
