import Whispera.YaDisk
import Whispera.Lib.Processes
import Whispera.Lib.Transition

/-! What a file with a number holds is the chunk with this number, however often it was written; a transport
reads it once, and only after those before it. So it does not matter when a request is carried out. -/

namespace Whispera
namespace YaDisk
open List Option Transition Processes

theorem filePath_inj {dir dir' : Path} {k k' : Nat} (hlen : dir.length = dir'.length)
    (h : filePath dir k = filePath dir' k') : dir = dir' ∧ k = k' := by
  obtain ⟨hdir, hseq⟩ := append_inj h hlen
  exact ⟨hdir, Text.zeroPadded_inj (List.cons.inj hseq).2⟩

theorem length_c2sDir (sessionID : List Char) : (c2sDir sessionID).length = (s2cDir sessionID).length := by
  simp [c2sDir, s2cDir]

theorem c2sDir_ne_s2cDir (sessionID : List Char) : c2sDir sessionID ≠ s2cDir sessionID := by
  simp [c2sDir, s2cDir]

namespace Transport
variable {t t' : Transport} {act : Act}

/-- What a step of the transport does. -/
inductive Step (t : Transport) : Act → Transport → Prop
  | accept : t.connCh = true → Step t .accept { t with connCh := false }
  | write {p : Bytes} : t.connCh = false → t.writing = [] → Step t (.write p) { t with writing := p }
  | offer : t.writing ≠ [] → Step t .offer { t with
      dataOut := t.dataOut ++ [t.writing.take maxChunkSize]
      offered := t.offered ++ [t.writing.take maxChunkSize]
      writing := t.writing.drop maxChunkSize }
  | writeStop : Step t .writeStop { t with writing := [] }
  | send {data : Bytes} {rest : List Bytes} : t.sendLoop = .idle → t.dataOut = data :: rest →
      Step t .send { t with
        dataOut := rest, writeSeq := t.writeSeq + 1, sendLoop := .putting (filePath t.writeDir t.writeSeq) data }
  | retry {path : Path} {data : Bytes} : t.sendLoop = .waiting path data →
      Step t .retry { t with sendLoop := .putting path data }
  | sendStop : Step t .sendStop { t with sendLoop := .ended }
  | hand {data : Bytes} : t.recvLoop = .handing data →
      Step t .hand { t with dataIn := t.dataIn ++ [data], recvLoop := .idle }
  | recvStop : t.recvLoop ≠ .ended → Step t .recvStop { t with recvLoop := .ended }
  | readBuf {size : Nat} : Step t (.read size) { t with
      returned := t.returned ++ t.buf.take size, buf := t.buf.drop size }
  | readChunk {size : Nat} {data : Bytes} {rest : List Bytes} : t.buf = [] → t.dataIn = data :: rest →
      Step t (.read size) { t with returned := t.returned ++ data.take size, buf := data.drop size, dataIn := rest }
  | readNone {size : Nat} : Step t (.read size) t
  | stop : Step t .stop { t with stopped := true }

theorem read_inv {size : Nat} (h : t.read size = some t') : Step t (.read size) t' := by
  simp only [read] at h
  split at h
  · cases h
  · split at h
    · cases h
      exact .readBuf
    · rename_i hbuf
      split at h
      · split at h <;> cases h
        exact .readNone
      · rename_i data rest hdata
        cases h
        exact .readChunk (not_not.mp hbuf) hdata

theorem step_inv (h : t.step act = some t') : Step t act t' := by
  -- one goal for each way through `step` that leads to a state, in the order of its cases
  cases act <;> simp only [step, Transport.write, Transport.offer] at h <;> (try split at h) <;> try cases h
  · exact .accept ‹_›
  · rename_i hfree
    exact .write (by simpa using fun hc => hfree (.inl hc)) (not_not.mp fun hw => hfree (.inr hw))
  · rename_i hroom
    exact .offer fun hnil => hroom (.inl hnil)
  · exact .writeStop
  · exact .send ‹_› ‹_›
  · exact .retry ‹_›
  · split at h <;> cases h
    exact .sendStop
  · split at h <;> cases h
    exact .sendStop
  · split at h <;> cases h
    exact .hand ‹_›
  · rename_i hidle
    split at h <;> cases h
    exact .recvStop (by simp [hidle])
  · rename_i hhand
    split at h <;> cases h
    exact .recvStop (by simp [hhand])
  · exact read_inv h
  · exact .stop

/-- Directories stay, and what was offered and numbered grows. -/
structure Grows (t t' : Transport) : Prop where
  config : t'.config = t.config
  writeDir : t'.writeDir = t.writeDir
  readDir : t'.readDir = t.readDir
  offered : t.offered <+: t'.offered
  writeSeq : t.writeSeq ≤ t'.writeSeq

theorem step_grows (h : t.step act = some t') : Grows t t' ∧ t'.received = t.received ∧ t'.readSeq = t.readSeq := by
  cases step_inv h with
  | offer _ => exact ⟨⟨rfl, rfl, rfl, prefix_append _ _, le_rfl⟩, rfl, rfl⟩
  | send _ _ => exact ⟨⟨rfl, rfl, rfl, prefix_rfl, Nat.le_succ _⟩, rfl, rfl⟩
  | _ => exact ⟨⟨rfl, rfl, rfl, prefix_rfl, le_rfl⟩, rfl, rfl⟩

def Numbered (t : Transport) (path : Path) (data : Bytes) : Prop :=
  ∃ k < t.writeSeq, path = filePath t.writeDir k ∧ t.offered[k]? = some data

theorem Numbered.grows {path : Path} {data : Bytes} (h : t.Numbered path data) (hg : Grows t t') :
    t'.Numbered path data := by
  obtain ⟨k, hk, hpath, hdata⟩ := h
  obtain ⟨more, hmore⟩ := hg.offered
  refine ⟨k, lt_of_lt_of_le hk hg.writeSeq, hg.writeDir ▸ hpath, ?_⟩
  rw [← hmore]
  exact get_append_left hdata more

/-- What is offered and not sent yet is in the channel, and the chunk of the send loop has its number. -/
structure Sends (t : Transport) : Prop where
  short : ∀ data ∈ t.offered, data.length ≤ maxChunkSize
  queue : t.offered.drop t.writeSeq = t.dataOut
  taken : t.writeSeq ≤ t.offered.length
  current : ∀ path data, t.sendLoop = .putting path data ∨ t.sendLoop = .waiting path data → t.Numbered path data

theorem Sends.step (h : t.Sends) (hs : t.step act = some t') : t'.Sends := by
  have hg := (step_grows hs).1
  cases step_inv hs with
  | offer _ =>
    refine ⟨fun data hdata => ?_, ?_, ?_, fun path data hpc => (h.current path data hpc).grows hg⟩
    · rcases mem_append.mp hdata with hdata | hdata
      · exact h.short data hdata
      · rw [mem_singleton.mp hdata]
        exact length_take_le _ _
    · rw [drop_append_of_le_length h.taken, h.queue]
    · have := h.taken
      simp only [length_append]
      omega
  | @send data rest hidle hdata =>
    have hqueue := h.queue.trans hdata
    have hlt : t.writeSeq < t.offered.length := by
      have hlen := congrArg length hqueue
      simp only [length_drop, length_cons] at hlen
      omega
    have hget : t.offered[t.writeSeq]? = some data := by
      have := congrArg List.head? hqueue
      rwa [head?_drop] at this
    refine ⟨h.short, ?_, hlt, fun path data' hpc => ?_⟩
    · have := congrArg List.tail hqueue
      rwa [tail_drop] at this
    · obtain hpc | hpc := hpc
      · cases hpc
        exact ⟨t.writeSeq, Nat.lt_succ_self _, rfl, hget⟩
      · cases hpc
  | retry hwait =>
    refine ⟨h.short, h.queue, h.taken, fun path data hpc => ?_⟩
    obtain hpc | hpc := hpc
    · cases hpc
      exact h.current _ _ (.inr hwait)
    · cases hpc
  | sendStop => exact ⟨h.short, h.queue, h.taken, fun path data hpc => by obtain hpc | hpc := hpc <;> cases hpc⟩
  | _ => exact ⟨h.short, h.queue, h.taken, h.current⟩

/-- The argument of a call of `Write` that begins. -/
def Act.argument : Act → Option Bytes
  | .write p => some p
  | _ => none

def Act.inWrite : Act → Bool
  | .write _ | .offer | .writeStop => true
  | _ => false

/-- What the calls of `Write` in the steps have written of their arguments, one call after the other, and what
    is left of the last one: a call writes a part of what is left at a time, and leaves the rest when it is
    stopped. -/
inductive Writes : List Act → Bytes → Bytes → Prop
  | nil : Writes [] [] []
  | write {as : List Act} {b : Bytes} (p : Bytes) : Writes as b [] → Writes (as ++ [.write p]) b p
  | offer {as : List Act} {b r : Bytes} (k : Nat) : Writes as b r → Writes (as ++ [.offer]) (b ++ r.take k) (r.drop k)
  | stop {as : List Act} {b r : Bytes} : Writes as b r → Writes (as ++ [.writeStop]) b []
  | other {as : List Act} {b r : Bytes} {a : Act} : a.inWrite = false → Writes as b r → Writes (as ++ [a]) b r

theorem Writes.step {as : List Act} (h : Writes as t.written t.writing) (hs : t.step act = some t') :
    Writes (as ++ [act]) t'.written t'.writing := by
  cases step_inv hs with
  | write _ hfree => exact .write _ (hfree ▸ h)
  | offer _ =>
    rw [written, flatten_append, flatten_singleton]
    exact h.offer maxChunkSize
  | writeStop => exact h.stop
  | _ => exact h.other rfl

/-- As long as no call is stopped, nothing of the arguments is left out. -/
theorem Writes.append_eq {as : List Act} {b r : Bytes} (h : Writes as b r) (hstop : .writeStop ∉ as) :
    b ++ r = (as.filterMap Act.argument).flatten := by
  induction h with
  | nil => rfl
  | write p _ ih =>
    have h := ih fun hm => hstop (mem_append_left _ hm)
    rw [append_nil] at h
    rw [filterMap_append, flatten_append, ← h]
    exact congrArg _ (append_nil p).symm
  | offer k _ ih =>
    rw [append_assoc, take_append_drop, filterMap_append, flatten_append, ih fun hm => hstop (mem_append_left _ hm)]
    exact (append_nil _).symm
  | stop _ _ => exact absurd (mem_append_right _ mem_cons_self) hstop
  | @other _ _ _ a ha _ ih =>
    rw [filterMap_append, flatten_append, ih fun hm => hstop (mem_append_left _ hm)]
    cases a with
    | write _ | offer | writeStop => cases ha
    | _ => exact (append_nil _).symm

def held : RecvPc → Bytes
  | .handing data => data
  | .idle | .ended => []

/-- What was read of the files and is on its way, after what `Read` has returned. -/
def passed (t : Transport) : Bytes := t.returned ++ (t.buf ++ (t.dataIn.flatten ++ held t.recvLoop))

/-- The files are read by their numbers, and nothing of them is lost, but for the last one when the loop ends.
    -/
structure Receives (t : Transport) : Prop where
  count : t.received.length = t.readSeq
  order : t.passed <+: t.received.flatten
  whole : t.recvLoop ≠ .ended → t.passed = t.received.flatten

theorem Receives.of_passed (h : t.Receives) (hcount : t'.readSeq = t.readSeq) (hreceived : t'.received = t.received)
    (hpc : t'.recvLoop = t.recvLoop) (hpassed : t'.passed = t.passed) : t'.Receives := by
  refine ⟨by rw [hreceived, hcount, h.count], by rw [hpassed, hreceived]; exact h.order, fun hne => ?_⟩
  rw [hpassed, hreceived]
  exact h.whole (hpc ▸ hne)

theorem Receives.step (h : t.Receives) (hs : t.step act = some t') : t'.Receives := by
  cases step_inv hs with
  | @hand data hhand =>
    have hpassed : t.passed = { t with dataIn := t.dataIn ++ [data], recvLoop := .idle }.passed := by
      simp [passed, hhand, held]
    have hwhole := h.whole (by rw [hhand]; exact RecvPc.noConfusion)
    rw [hpassed] at hwhole
    exact ⟨h.count, hwhole ▸ prefix_rfl, fun _ => hwhole⟩
  | recvStop _ =>
    refine ⟨h.count, List.IsPrefix.trans ?_ h.order, fun hne => absurd rfl hne⟩
    -- the chunk that the loop has got hold of is dropped
    refine (prefix_append_right_inj _).mpr ((prefix_append_right_inj _).mpr ((prefix_append_right_inj _).mpr ?_))
    exact nil_prefix
  | readBuf =>
    refine h.of_passed rfl rfl rfl ?_
    simp only [passed, append_assoc]
    rw [← append_assoc (take _ _), take_append_drop]
  | @readChunk size data rest hbuf hdata =>
    refine h.of_passed rfl rfl rfl ?_
    simp only [passed, hbuf, hdata, flatten_cons, append_assoc, nil_append]
    rw [← append_assoc (take _ _), take_append_drop]
  | _ => exact h.of_passed rfl rfl rfl rfl

theorem Receives.got (h : t.Receives) (hidle : t.recvLoop = .idle) (data : Bytes) :
    { t with readSeq := t.readSeq + 1, recvLoop := .handing data, received := t.received ++ [data] }.Receives := by
  have hpassed : t.passed ++ data = (t.received ++ [data]).flatten := by
    rw [h.whole (by rw [hidle]; exact RecvPc.noConfusion), flatten_append, flatten_singleton]
  have hheld : { t with
      readSeq := t.readSeq + 1, recvLoop := .handing data, received :=
        t.received ++ [data] }.passed = t.passed ++ data := by
    simp [passed, hidle, held]
  exact ⟨by rw [length_append, h.count]; rfl, ⟨[], (append_nil _).trans (hheld.trans hpassed)⟩,
    fun _ => hheld.trans hpassed⟩

theorem Receives.returned_of_received (h : t.Receives) : t.returned <+: t.received.flatten :=
  (prefix_append _ _).trans h.order

/-- The transport as `Start` leaves it. -/
structure Started (cfg : Config) (t : Transport) : Prop where
  config : t.config = cfg
  dirs : (t.writeDir, t.readDir) = if cfg.serverMode then (s2cDir cfg.sessionID, c2sDir cfg.sessionID)
    else (c2sDir cfg.sessionID, s2cDir cfg.sessionID)
  connCh : t.connCh = true
  writeSeq : t.writeSeq = 0
  offered : t.offered = []
  writing : t.writing = []
  received : t.received = []
  sends : t.Sends
  receives : t.Receives

theorem start_spec {cfg : Config} (h : (new cfg).start = some t) : Started cfg t := by
  simp only [start] at h
  split at h <;> cases h
  cases hmode : cfg.serverMode <;> simp only [new, hmode] <;>
    exact ⟨rfl, by simp [hmode], rfl, rfl, rfl, rfl, rfl,
      ⟨by simp, rfl, le_rfl, fun _ _ hpc => by obtain hpc | hpc := hpc <;> cases hpc⟩,
      rfl, prefix_rfl, fun _ => rfl⟩

end Transport

namespace Disk
variable {s s' : Disk} {act : Act} {old : Path → Option Bytes} {i : Nat} {t t' : Transport}

def Wrote (s : Disk) (path : Path) (data : Bytes) : Prop := ∃ e ∈ s.puts, e.path = path ∧ e.data = data

/-- Everything that is in a file, or was read of one, is a chunk with the number of the file, or was there
    before. -/
structure Sound (old : Path → Option Bytes) (s : Disk) : Prop where
  sends : ∀ t ∈ s.transports, t.Sends
  receives : ∀ t ∈ s.transports, t.Receives
  puts : ∀ e ∈ s.puts, ∃ t, s.transports[e.owner]? = some t ∧ t.Numbered e.path e.data
  files : ∀ path data, s.files path = some data → old path = some data ∨ s.Wrote path data
  received : ∀ t ∈ s.transports, ∀ k data, t.received[k]? = some data →
    (∃ was, old (filePath t.readDir k) = some was) ∨ s.Wrote (filePath t.readDir k) data

theorem mem_setTransport {u : Transport} (h : u ∈ (s.setTransport i t).transports) : u ∈ s.transports ∨ u = t :=
  mem_or_eq_of_mem_set h

section
variable (h : s.Sound old)
include h

theorem Sound.setTransport (hi : s.transports[i]? = some t) (hg : t.Grows t') (hsends : t'.Sends)
    (hreceives : t'.Receives) (hreceived : ∀ k data, t'.received[k]? = some data →
      (∃ was, old (filePath t'.readDir k) = some was) ∨ s.Wrote (filePath t'.readDir k) data) :
    (s.setTransport i t').Sound old := by
  refine ⟨fun u hu => ?_, fun u hu => ?_, fun e he => ?_, h.files, fun u hu => ?_⟩
  · rcases mem_setTransport hu with hu | rfl
    · exact h.sends u hu
    · exact hsends
  · rcases mem_setTransport hu with hu | rfl
    · exact h.receives u hu
    · exact hreceives
  · obtain ⟨u, hu, hnum⟩ := h.puts e he
    rcases eq_or_ne e.owner i with howner | howner
    · rw [howner] at hu ⊢
      obtain rfl : t = u := some.inj (hi.symm.trans hu)
      exact ⟨t', get_set_self hi t', hnum.grows hg⟩
    · exact ⟨u, (getElem?_set_ne howner.symm).trans hu, hnum⟩
  · rcases mem_setTransport hu with hu | rfl
    · exact h.received u hu
    · exact hreceived

theorem Sound.setFile {path : Path} {data : Option Bytes} (hdata : ∀ d ∈ data, s.Wrote path d) :
    (s.setFile path data).Sound old := by
  refine ⟨h.sends, h.receives, h.puts, fun p d hp => ?_, h.received⟩
  simp only [Disk.setFile] at hp
  split at hp
  · rename_i heq
    exact .inr (heq ▸ hdata d hp)
  · exact h.files p d hp

theorem Sound.addPut {e : Put} (he : ∃ t, s.transports[e.owner]? = some t ∧ t.Numbered e.path e.data) :
    { s with puts := s.puts ++ [e] }.Sound old := by
  have hwrote : ∀ {path data}, s.Wrote path data → { s with puts := s.puts ++ [e] }.Wrote path data := by
    rintro path data ⟨e', he', hpath⟩
    exact ⟨e', mem_append_left _ he', hpath⟩
  refine ⟨h.sends, h.receives, fun e' he' => ?_, fun p d hp => (h.files p d hp).imp_right hwrote,
    fun u hu k d hd => (h.received u hu k d hd).imp_right hwrote⟩
  rcases mem_append.mp he' with he' | he'
  · exact h.puts e' he'
  · rw [mem_singleton.mp he']
    exact he

theorem Sound.go {act : Transport.Act} (hi : s.transports[i]? = some t) (hs : t.step act = some t') :
    (s.setTransport i t').Sound old := by
  have ht := mem_of_getElem? hi
  obtain ⟨hg, hreceived, -⟩ := Transport.step_grows hs
  refine h.setTransport hi hg ((h.sends t ht).step hs) ((h.receives t ht).step hs) fun k data hdata => ?_
  rw [hreceived] at hdata
  rw [hg.readDir]
  exact h.received t ht k data hdata

theorem Sound.put {carriedOut ok : Bool} (hi : s.transports[i]? = some t)
    (hs : s.put i t carriedOut ok = some s') : s'.Sound old := by
  simp only [Disk.put] at hs
  split at hs
  · rename_i path data hpc
    split at hs <;> cases hs
    have ht := mem_of_getElem? hi
    have hnum := (h.sends t ht).current path data (.inl hpc)
    have hput := h.addPut (e := ⟨i, path, data⟩) ⟨t, hi, hnum⟩
    -- the transport goes on, or waits with the same chunk
    have hnext : { t with sendLoop := if ok then .idle else .waiting path data }.Sends := by
      refine ⟨(h.sends t ht).short, (h.sends t ht).queue, (h.sends t ht).taken, fun p d hpd => ?_⟩
      cases ok with
      | true => obtain hpd | hpd := hpd <;> cases hpd
      | false =>
        obtain hpd | hpd := hpd
        · cases hpd
        · cases hpd
          exact hnum
    have hgrows : t.Grows { t with sendLoop := if ok then .idle else .waiting path data } :=
      ⟨rfl, rfl, rfl, prefix_rfl, le_rfl⟩
    have hrecv : { t with sendLoop := if ok then .idle else .waiting path data }.Receives :=
      (h.receives t ht).of_passed rfl rfl rfl rfl
    cases carriedOut with
    | false => exact hput.setTransport hi hgrows hnext hrecv (hput.received t ht)
    | true =>
      have hdata : ∀ d ∈ some data, { s with puts := s.puts ++ [Put.mk i path data] }.Wrote path d := fun d hd => by
        cases hd
        exact ⟨_, mem_append_right _ (mem_singleton_self _), rfl, rfl⟩
      have hfile := hput.setFile hdata
      exact hfile.setTransport hi hgrows hnext hrecv (hfile.received t ht)
  · cases hs

theorem Sound.length_wrote {path : Path} {data : Bytes} (hw : s.Wrote path data) : data.length ≤ maxChunkSize := by
  obtain ⟨e, he, -, rfl⟩ := hw
  obtain ⟨t, ht, k, -, -, hk⟩ := h.puts e he
  exact (h.sends t (mem_of_getElem? ht)).short e.data (mem_of_getElem? hk)

theorem Sound.get {ok : Bool} (hi : s.transports[i]? = some t) (hs : s.get i t ok = some s') : s'.Sound old := by
  simp only [Disk.get] at hs
  split at hs
  · rename_i hidle
    split at hs <;> cases hs
    · exact h
    · rename_i content hcontent
      have ht := mem_of_getElem? hi
      have hfile : s.files (filePath t.readDir t.readSeq) = some content := by
        cases ok with
        | true => exact hcontent
        | false => cases hcontent
      refine Sound.setTransport (s := { s with deletes := _ }) ⟨h.sends, h.receives, h.puts, h.files, h.received⟩ hi
        ⟨rfl, rfl, rfl, prefix_rfl, le_rfl⟩ ?_ ((h.receives t ht).got hidle _) fun k data hdata => ?_
      · exact ⟨(h.sends t ht).short, (h.sends t ht).queue, (h.sends t ht).taken, (h.sends t ht).current⟩
      · rcases get_begin_cases hdata with hdata | ⟨hk, hget⟩
        · exact h.received t ht k data hdata
        · rw [hk, (h.receives t ht).count]
          -- what is in the file is no longer than a chunk can be, so all of it was read
          rcases h.files _ content hfile with hold | hwrote
          · exact .inl ⟨content, hold⟩
          · rw [take_of_length_le (h.length_wrote hwrote)] at hget
            exact .inr (hget.symm ▸ hwrote)
  · cases hs

theorem Sound.step (hs : s.step act = some s') : s'.Sound old := by
  cases act with
  | go i act =>
    obtain ⟨t, hi, hs⟩ := bind_eq_some_iff.mp hs
    obtain ⟨t', ht', rfl⟩ := map_eq_some_iff.mp hs
    exact h.go hi ht'
  | put i carriedOut ok =>
    obtain ⟨t, hi, hs⟩ := bind_eq_some_iff.mp hs
    exact h.put hi hs
  | get i ok =>
    obtain ⟨t, hi, hs⟩ := bind_eq_some_iff.mp hs
    exact h.get hi hs
  | land n =>
    obtain ⟨e, he, rfl⟩ := map_eq_some_iff.mp hs
    refine h.setFile fun d hd => ?_
    cases hd
    exact ⟨e, mem_of_getElem? he, rfl, rfl⟩
  | remove n =>
    obtain ⟨path, -, rfl⟩ := map_eq_some_iff.mp hs
    exact h.setFile nofun

end

theorem step_transports (hs : s.step act = some s') : s'.transports = s.transports ∨
    ∃ i t t', s.transports[i]? = some t ∧ s'.transports = s.transports.set i t' ∧ t.Grows t' ∧
      ((∃ a, act = .go i a ∧ t.step a = some t') ∨
       (∃ path data pc, t.sendLoop = .putting path data ∧ t' = { t with sendLoop := pc }) ∨
       ∃ data, t' = { t with
         readSeq := t.readSeq + 1, recvLoop := .handing data, received := t.received ++ [data] }) := by
  cases act with
  | go i act =>
    obtain ⟨t, hi, hs⟩ := bind_eq_some_iff.mp hs
    obtain ⟨t', ht', rfl⟩ := map_eq_some_iff.mp hs
    exact .inr ⟨i, t, t', hi, rfl, (Transport.step_grows ht').1, .inl ⟨act, rfl, ht'⟩⟩
  | put i carriedOut ok =>
    obtain ⟨t, hi, hs⟩ := bind_eq_some_iff.mp hs
    simp only [put] at hs
    split at hs
    · rename_i path data hpc
      split at hs <;> cases hs
      refine .inr ⟨i, t, _, hi, ?_, ?_, .inr (.inl ⟨path, data, if ok then .idle else .waiting path data, hpc, rfl⟩)⟩
      · cases carriedOut <;> rfl
      · exact ⟨rfl, rfl, rfl, prefix_rfl, le_rfl⟩
    · cases hs
  | get i ok =>
    obtain ⟨t, hi, hs⟩ := bind_eq_some_iff.mp hs
    simp only [get] at hs
    split at hs
    · split at hs <;> cases hs
      · exact .inl rfl
      · rename_i content hcontent
        exact .inr ⟨i, t, _, hi, rfl, ⟨rfl, rfl, rfl, prefix_rfl, le_rfl⟩,
          .inr (.inr ⟨content.take maxChunkSize, rfl⟩)⟩
    · cases hs
  | land n =>
    obtain ⟨e, he, rfl⟩ := map_eq_some_iff.mp hs
    exact .inl rfl
  | remove n =>
    obtain ⟨path, -, rfl⟩ := map_eq_some_iff.mp hs
    exact .inl rfl

theorem sound_start {transports : List Transport} (h : ∀ t ∈ transports, ∃ cfg, t.Started cfg) :
    { transports := transports, files := old : Disk }.Sound old := by
  refine ⟨fun t ht => ?_, fun t ht => ?_, fun e he => absurd he not_mem_nil,
    fun path data hp => .inl hp, fun t ht k data hk => ?_⟩
  · obtain ⟨cfg, hcfg⟩ := h t ht
    exact hcfg.sends
  · obtain ⟨cfg, hcfg⟩ := h t ht
    exact hcfg.receives
  · obtain ⟨cfg, hcfg⟩ := h t ht
    rw [hcfg.received] at hk
    cases hk

def places (s : Disk) : List (Config × Path × Path) := s.transports.map fun t => (t.config, t.writeDir, t.readDir)

theorem places_step (hs : s.step act = some s') : s'.places = s.places := by
  rcases step_transports hs with heq | ⟨i, t, t', hi, heq, hg, -⟩
  · rw [places, heq, places]
  · rw [places, heq]
    exact map_set hi (by rw [hg.config, hg.writeDir, hg.readDir])

theorem Sound.received_of_offered {a b : Transport} (h : s.Sound old) (ha : s.transports[i]? = some a)
    (hb : b ∈ s.transports)
    (hclear : ∀ k, old (filePath b.readDir k) = none)
    (hdirs : ∀ j u, s.transports[j]? = some u → u.writeDir.length = b.readDir.length ∧
     (u.writeDir = b.readDir → j = i)) :
    b.received <+: a.offered := by
  have hchunk : ∀ (k : Nat) (data : Bytes), b.received[k]? = some data → a.offered[k]? = some data := by
    intro k data hk
    rcases h.received b hb k data hk with ⟨was, hold⟩ | ⟨e, he, hpath, rfl⟩
    · rw [hclear k] at hold
      cases hold
    · obtain ⟨u, hu, m, -, hm, hdata⟩ := h.puts e he
      obtain ⟨hlen, howner⟩ := hdirs e.owner u hu
      obtain ⟨hdir, rfl⟩ := filePath_inj hlen (hm.symm.trans hpath)
      rw [howner hdir, ha] at hu
      rw [some.inj hu, hdata]
  rw [prefix_iff_getElem?]
  intro k hk
  exact hchunk k _ (getElem?_eq_getElem hk)

theorem Sound.returned_of_written {a b : Transport} (h : s.Sound old) (ha : s.transports[i]? = some a)
    (hb : b ∈ s.transports)
    (hclear : ∀ k, old (filePath b.readDir k) = none)
    (hdirs : ∀ j u, s.transports[j]? = some u → u.writeDir.length = b.readDir.length ∧
     (u.writeDir = b.readDir → j = i)) :
    b.returned <+: a.written := by
  obtain ⟨rest, hrest⟩ := h.received_of_offered ha hb hclear hdirs
  refine (h.receives b hb).returned_of_received.trans ?_
  rw [Transport.written, ← hrest, flatten_append]
  exact prefix_append _ _

/-- The steps of one of the transports. -/
def Act.of (i : Nat) : Act → Option Transport.Act
  | .go j a => if j = i then some a else none
  | _ => none

theorem Act.of_eq_some {a : Transport.Act} (h : Act.of i act = some a) : act = .go i a := by
  cases act with
  | go j b =>
    simp only [Act.of] at h
    split at h <;> cases h
    subst ‹j = i›
    rfl
  | _ => cases h

def Written (acts : List Act) (s : Disk) : Prop :=
  ∀ j t, s.transports[j]? = some t → Transport.Writes (acts.filterMap (Act.of j)) t.written t.writing

theorem Written.step {acts : List Act} (h : Written acts s) (hs : s.step act = some s') :
    Written (acts ++ [act]) s' := by
  -- a request for a file leaves what the calls of `Write` have to do with
  have hquiet : (∀ j, Act.of j act = none) → Written (acts ++ [act]) s' := by
    intro hnone j u hu
    rw [filterMap_append, filterMap_cons_none (hnone j), filterMap_nil, append_nil]
    rcases step_transports hs with heq | ⟨i, t, t', hi, heq, -, hmove⟩
    · exact h j u (heq ▸ hu)
    · rw [heq] at hu
      rcases get_set_cases hi hu with ⟨rfl, rfl⟩ | ⟨-, hu⟩
      · rcases hmove with ⟨a, rfl, -⟩ | ⟨_, _, _, -, rfl⟩ | ⟨_, rfl⟩
        · simp [Act.of] at hnone
        · exact h j t hi
        · exact h j t hi
      · exact h j u hu
  cases act with
  | go i a =>
    obtain ⟨t, hi, hs⟩ := bind_eq_some_iff.mp hs
    obtain ⟨t', ht', rfl⟩ := map_eq_some_iff.mp hs
    intro j u hu
    rw [filterMap_append]
    rcases get_set_cases hi hu with ⟨rfl, rfl⟩ | ⟨hne, hu⟩
    · have hown : Act.of j (.go j a) = some a := if_pos rfl
      rw [filterMap_cons_some hown]
      exact (h j t hi).step ht'
    · have hother : Act.of j (.go i a) = none := if_neg hne.symm
      rw [filterMap_cons_none hother, filterMap_nil, append_nil]
      exact h j u hu
  | _ => exact hquiet fun _ => rfl

theorem written_run {s0 : Disk} (h0 : Written [] s0) {acts : List Act} (hrun : AnyRun Disk.step s0 acts s) :
    Written acts s := by
  induction hrun with
  | nil => exact h0
  | snoc _ _ hs ih => exact ih.step hs

end Disk

open Disk Transport in
/-- What `Read` has returned on one side is a prefix of what the calls of `Write` on the other have written of
    their arguments; and if none of them was stopped, only what is left of the last one is missing. -/
theorem bytes_arrive_in_order (client server : Config) (hclient : client.serverMode = false)
    (hserver : server.serverMode = true)
    (hsession : server.sessionID = client.sessionID) {c0 v0 : Transport} (hc0 : (new client).start = some c0)
    (hv0 : (new server).start = some v0) {files : Path → Option Bytes}
    (hfiles : ∀ k, files (filePath (c2sDir client.sessionID) k) = none ∧
     files (filePath (s2cDir client.sessionID) k) = none)
    {acts : List Disk.Act} {s : Disk} (hrun : AnyRun Disk.step { transports := [c0, v0], files := files } acts s) :
    ∃ c v, s.transports = [c, v] ∧ v.returned <+: c.written ∧ c.returned <+: v.written ∧
      ∀ i t, s.transports[i]? = some t → Writes (acts.filterMap (Disk.Act.of i)) t.written t.writing ∧
        (.go i .writeStop ∉ acts →
         t.written ++ t.writing = ((acts.filterMap (Disk.Act.of i)).filterMap Act.argument).flatten) := by
  have hc := start_spec hc0
  have hv := start_spec hv0
  have hdirsC := hc.dirs
  have hdirsV := hv.dirs
  rw [hclient] at hdirsC
  rw [hserver, hsession] at hdirsV
  simp only [Bool.false_eq_true, if_false, if_true, Prod.mk.injEq] at hdirsC hdirsV
  have hstarted : ∀ t ∈ [c0, v0], ∃ cfg, Started cfg t := by
    simpa using And.intro ⟨client, hc⟩ ⟨server, hv⟩
  have hsound : s.Sound files := hrun.invariant (fun h _ hs => h.step hs) (sound_start hstarted)
  have hplaces : s.places = [(client, c2sDir client.sessionID, s2cDir client.sessionID),
      (server, s2cDir client.sessionID, c2sDir client.sessionID)] := by
    have hkept : s.places = Disk.places { transports := [c0, v0], files := files } :=
      hrun.invariant (I := fun u => u.places = Disk.places { transports := [c0, v0], files := files })
        (fun h _ hs => (places_step hs).trans h) rfl
    rw [hkept, Disk.places, map_cons, map_singleton, hc.config, hv.config, hdirsC.1, hdirsC.2, hdirsV.1, hdirsV.2]
  obtain ⟨c, rest, htrans, hcplace, hrest⟩ := map_eq_cons_iff.mp hplaces
  obtain ⟨v, rest', rfl, hvplace, hnil⟩ := map_eq_cons_iff.mp hrest
  obtain rfl := map_eq_nil_iff.mp hnil
  simp only [Prod.mk.injEq] at hcplace hvplace
  obtain ⟨-, hcw, hcr⟩ := hcplace
  obtain ⟨-, hvw, hvr⟩ := hvplace
  have hlen := length_c2sDir client.sessionID
  have hne := c2sDir_ne_s2cDir client.sessionID
  have hwritten : Disk.Written [] { transports := [c0, v0], files := files } := by
    intro j t ht
    obtain ⟨cfg, hcfg⟩ := hstarted t (mem_of_getElem? ht)
    rw [written, hcfg.offered, hcfg.writing]
    exact .nil
  refine ⟨c, v, htrans, ?_, ?_, fun i t ht => ?_⟩
  · refine hsound.returned_of_written (i := 0) (by rw [htrans]; rfl) (by simp [htrans])
      (fun k => hvr ▸ (hfiles k).1) fun j u hu => ?_
    rw [htrans] at hu
    match j with
    | 0 =>
      cases hu
      exact ⟨by rw [hcw, hvr], fun _ => rfl⟩
    | 1 =>
      cases hu
      exact ⟨by rw [hvw, hvr, hlen], fun heq => absurd (hvr.symm.trans (heq.symm.trans hvw)) hne⟩
  · refine hsound.returned_of_written (i := 1) (by rw [htrans]; rfl) (by simp [htrans])
      (fun k => hcr ▸ (hfiles k).2) fun j u hu => ?_
    rw [htrans] at hu
    match j with
    | 0 =>
      cases hu
      exact ⟨by rw [hcw, hcr, hlen], fun heq => absurd (hcw.symm.trans (heq.trans hcr)) hne⟩
    | 1 =>
      cases hu
      exact ⟨by rw [hvw, hcr], fun _ => rfl⟩
  · have hw := written_run hwritten hrun i t ht
    refine ⟨hw, fun hstop => hw.append_eq fun hmem => hstop ?_⟩
    obtain ⟨act, hact, heq⟩ := mem_filterMap.mp hmem
    exact Act.of_eq_some heq ▸ hact

def diskConfig (serverMode : Bool) : Config :=
  { serverMode := serverMode, oauthToken := ['o'], sessionID := ['s', '1'] }

def diskTransport (serverMode : Bool) : Transport := { Transport.new (diskConfig serverMode) with connCh := true }

/-- The first request is carried out and reported as failed, and made again when the file was read and
    deleted. -/
def repeatedRun : List Disk.Act :=
  [.go 0 .accept, .go 1 .accept, .go 0 (.write [1, 2, 3]), .go 0 .offer, .go 0 (.write [4, 5]), .go 0 .offer,
    .go 0 .send, .put 0 true false, .get 1 true, .go 1 .hand, .remove 0, .go 0 .retry, .put 0 true true, .get 1 true,
    .go 1 (.read 2), .get 1 false, .go 0 .send, .put 0 false false, .go 0 .retry, .put 0 true true, .land 0,
    .get 1 true,
    .go 1 .hand, .go 1 (.read 2), .go 1 (.read 1)]

theorem bytes_arrive_after_repeated_put : ∃ s c v, AnyRun Disk.step
      { transports := [diskTransport false, diskTransport true], files := fun _ => none } repeatedRun s ∧
    s.transports = [c, v] ∧ c.written ++ c.writing = [1, 2, 3, 4, 5] ∧ v.returned = [1, 2, 3, 4] ∧
    v.returned <+: c.written ∧ c.returned <+: v.written := by
  obtain ⟨s, hrun, hs⟩ := AnyRun.exists_of_exec
    (show ∃ s ∈ exec Disk.step
      { transports := [diskTransport false, diskTransport true], files := fun _ => none } repeatedRun,
      s.transports.map (·.returned) = [[], [1, 2, 3, 4]] by decide +kernel)
  obtain ⟨c, v, hcv, hv, hc, hwritten⟩ := bytes_arrive_in_order (diskConfig false) (diskConfig true) rfl rfl rfl rfl rfl
    (fun _ => ⟨rfl, rfl⟩) hrun
  have hall := (hwritten 0 c (by rw [hcv]; rfl)).2 (by decide)
  rw [hcv] at hs
  simp only [map_cons, map_nil, cons.injEq, and_true] at hs
  exact ⟨s, c, v, hrun, hcv, hall, hs.2, hv, hc⟩

end YaDisk
end Whispera
