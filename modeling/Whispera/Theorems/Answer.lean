import Whispera.Theorems.Arrival
import Whispera.Theorems.ProxyStep

/-! The records carry what was read from the target (`Answers`), and the end is marked only for a reason: the
target came to its end, or the client had ended its side, or the stream carries datagrams. -/

namespace Whispera
open List BigEndian Reader Transition

def Target.Exhausted (t : Target) : Prop := t.fin = some .eof ∧ t.parts = []

namespace ProxyStream

def answer (s : ProxyStream) : Bytes := s.target.taken.flatMap (frame s.kind)

def pending (s : ProxyStream) : Bytes :=
  match s.down with
  | .write data _ => frame s.kind data
  | _ => []

/-- Why the end of an answer is marked. -/
def Reason (s : ProxyStream) : Prop := s.target.Exhausted ∨ s.framed.done = true ∨ s.kind = .udp

def Copying (s : ProxyStream) : Prop := s.down = .read ∨ ∃ data err, s.down = .write data err

def Framing (s : ProxyStream) : Prop := s.down ≠ .readRaw ∧ ∀ data err, s.down ≠ .writeRaw data err

/-- Records with what was read from the target; then an end mark, for a reason; or a switch mark, and raw
    bytes. -/
inductive Answers (s : ProxyStream) : Prop
  | opened (rs : List Record) (hended : s.framed.ended = false) (hswitched : s.framed.switched = false)
      (hframing : s.Framing) (hrs : ∀ r ∈ rs, r.Body) (hsent : Sent s.framed.out (encodes rs))
      (hpay : s.framed.out.bytes = encodes rs ∨ s.Copying → payloads rs ++ s.pending = s.answer)
      (hlast : ∀ data e, s.down = .write data (some e) → s.target.fin = some e ∧ s.target.parts = [])
      (hfin : s.down = .finish none → s.target.Exhausted) (hpart : payloads rs <+: s.answer)
  | finished (rs : List Record) (pad : Bytes) (hended : s.framed.ended = true)
      (hswitched : s.framed.switched = false) (hdown : s.down = .done) (hrs : ∀ r ∈ rs, r.Body)
      (hfits : (Record.finish pad).Fits) (hsent : Sent s.framed.out (encodes rs ++ (Record.finish pad).encode))
      (hend : s.framed.endErr = none ↔ s.framed.out.bytes = encodes rs ++ (Record.finish pad).encode)
      (hpay : s.framed.out.bytes = encodes rs ++ (Record.finish pad).encode → payloads rs = s.answer ∧ s.Reason)
      (hpart : payloads rs <+: s.answer)
  | switched (rs : List Record) (pad raw : Bytes) (hended : s.framed.ended = true)
      (hswitched : s.framed.switched = true) (hread : s.down ≠ .read) (hwrite : ∀ data err, s.down ≠ .write data err)
      (hrs : ∀ r ∈ rs, r.Body) (hfits : (Record.switch pad).Fits)
      (hsent : Sent s.framed.out (encodes rs ++ (Record.switch pad).encode ++ raw)) (hpart : payloads rs <+: s.answer)

variable {s s' : ProxyStream}

theorem Answers.congr (h : s.Answers) (heq : s.SameAnswer s') : s'.Answers := by
  have hpending : s'.pending = s.pending := by
    unfold pending
    rw [heq.down, heq.kind]
  have hanswer : s'.answer = s.answer := by
    unfold answer
    rw [heq.taken, heq.kind]
  have hexh : s.target.Exhausted → s'.target.Exhausted := fun h => ⟨heq.fin.trans h.1, heq.parts.trans h.2⟩
  cases h with
  | opened rs hended hswitched hframing hrs hsent hpay hlast hfin hpart =>
    refine .opened rs (heq.ended.trans hended) (heq.switched.trans hswitched) ?_ hrs (heq.out ▸ hsent) ?_ ?_ ?_
      (hanswer ▸ hpart)
    · unfold Framing
      rw [heq.down]
      exact hframing
    · unfold Copying
      rw [heq.out, heq.down, hpending, hanswer]
      exact hpay
    · rw [heq.down, heq.fin, heq.parts]
      exact hlast
    · rw [heq.down]
      exact fun h => hexh (hfin h)
  | finished rs pad hended hswitched hdown hrs hfits hsent hend hpay hpart =>
    refine .finished rs pad (heq.ended.trans hended) (heq.switched.trans hswitched) (heq.down.trans hdown) hrs hfits
      (heq.out ▸ hsent) (by rw [heq.endErr, heq.out]; exact hend) (fun hfull => ?_) (hanswer ▸ hpart)
    rw [heq.out] at hfull
    obtain ⟨hp, hreason⟩ := hpay hfull
    refine ⟨by rw [hanswer, hp], ?_⟩
    rcases hreason with h | h | h
    · exact .inl (hexh h)
    · exact .inr (.inl (heq.done h))
    · exact .inr (.inr (heq.kind.trans h))
  | switched rs pad raw hended hswitched hread hwrite hrs hfits hsent hpart =>
    refine .switched rs pad raw (heq.ended.trans hended) (heq.switched.trans hswitched) ?_ ?_ hrs hfits
      (heq.out ▸ hsent)
      (hanswer ▸ hpart)
    · rw [heq.down]
      exact hread
    · rw [heq.down]
      exact hwrite

theorem readErr_eq_none {e : Err} (h : s.readErr e = none) : e = .eof := by
  unfold readErr copyErr at h
  split at h
  · split at h
    · assumption
    · cases h
  · cases h
  · cases h

theorem pending_eq_nil (h : ∀ data err, s.down ≠ .write data err) : s.pending = [] := by
  unfold pending
  split
  · exact absurd ‹_› (h _ _)
  · rfl

theorem frame_nil (kind : StreamKind) : frame kind [] = [] := by
  cases kind <;> rfl

end ProxyStream

namespace ProxyStream
variable {s s' : ProxyStream}

variable {r : TargetRead} {err : Option Err} {target : Target}

theorem answer_read {data : Bytes} (hread : s.target.read r = some (data, err, target)) :
    target.taken.flatMap (frame s.kind) = s.answer ++ frame s.kind data := by
  obtain ⟨-, -, -, ⟨-, htaken, -⟩ | ⟨rfl, rfl, -⟩⟩ := Target.read_spec hread
  · rw [htaken, flatMap_append, flatMap_singleton]
    rfl
  · rw [frame_nil, append_nil]
    rfl

theorem answers_downRead (h : s.Answers) (hdown : s.down = .read) {data : Bytes}
    (hread : s.target.read r = some (data, err, target)) : (s.downRead data err target).Answers := by
  obtain ⟨hfineq, -, -, hcase⟩ := Target.read_spec hread
  cases h with
  | finished rs pad hended hswitched hdone => exact absurd (hdown.symm.trans hdone) (by simp)
  | switched rs pad raw hended hswitched hnread => exact absurd hdown hnread
  | opened rs hended hswitched hframing hrs hsent hpay hlast hfin =>
    have hpend : s.pending = [] := pending_eq_nil (by simp [hdown])
    have hrecs : payloads rs = s.answer := by
      rw [← hpay (.inr (.inl hdown)), hpend, append_nil]
    have hpart : payloads rs <+: target.taken.flatMap (frame s.kind) := ⟨_, by rw [answer_read hread, hrecs]⟩
    have hpay' : ∀ x, x = frame s.kind data → payloads rs ++ x = target.taken.flatMap (frame s.kind) := by
      rintro x rfl
      rw [answer_read hread, hrecs]
    cases err with
    | none =>
      by_cases hnil : data = []
      · simp only [downRead, if_pos hnil]
        exact .opened rs hended hswitched ⟨by simp, by simp⟩ hrs hsent (fun _ => hpay' [] (by rw [hnil, frame_nil]))
          (by simp) (by simp) hpart
      · simp only [downRead, if_neg hnil]
        exact .opened rs hended hswitched ⟨by simp, by simp⟩ hrs hsent (fun _ => hpay' _ rfl) (by simp) (by simp) hpart
    | some e =>
      have hend : e = .eof ∨ data ≠ [] → target.fin = some e ∧ target.parts = [] := by
        intro hor
        rcases hcase with ⟨-, -, he⟩ | ⟨rfl, rfl, e', he', hexh⟩
        · obtain ⟨hf, hp⟩ := he e rfl
          exact ⟨hfineq.trans hf, hp⟩
        · cases he'
          rcases hor with h | h
          · exact hexh h
          · exact absurd rfl h
      by_cases hnil : data = []
      · simp only [downRead, if_pos hnil]
        refine .opened rs hended hswitched ⟨by simp, by simp⟩ hrs hsent (fun _ => hpay' [] (by rw [hnil, frame_nil]))
          (by simp) ?_ hpart
        intro hnone
        have he := readErr_eq_none (DownPc.finish.inj hnone)
        obtain ⟨hf, hp⟩ := hend (.inl he)
        exact ⟨by rw [hf, he], hp⟩
      · simp only [downRead, if_neg hnil]
        refine .opened rs hended hswitched ⟨by simp, by simp⟩ hrs hsent (fun _ => hpay' _ rfl) ?_ (by simp) hpart
        intro data' e' hw
        cases hw
        exact hend (.inr hnil)

theorem answers_downWrite (h : s.Answers) {data : Bytes} (hdown : s.down = .write data err)
    (d : Nat → Draws) : (s.downWrite d data err).Answers := by
  cases h with
  | finished rs pad hended hswitched hdone => exact absurd (hdown.symm.trans hdone) (by simp)
  | switched rs pad raw hended hswitched hnread hnwrite => exact absurd hdown (hnwrite data err)
  | opened rs hended hswitched hframing hrs hsent hpay hlast hfin =>
    have hpend : s.pending = frame s.kind data := by
      unfold pending
      rw [hdown]
    have hrecs : payloads rs ++ frame s.kind data = s.answer := by
      rw [← hpay (.inr (.inr ⟨data, err, hdown⟩)), hpend]
    obtain ⟨qs, out, n, werr, heq, hw, hqs, hpre, hall⟩ := FramedConn.write_spec hended d (frame s.kind data)
    obtain ⟨hsent', hfull⟩ := hsent.wrote hw
    rw [← encodes_append] at hsent' hfull
    have hbody : ∀ r ∈ rs ++ qs, r.Body := forall_mem_append.mpr ⟨hrs, hqs⟩
    have hpart : payloads (rs ++ qs) <+: s.answer := by
      rw [payloads_append, ← hrecs]
      exact (prefix_append_right_inj _).mpr hpre
    have hpay' : werr = none → payloads (rs ++ qs) ++ [] = s.answer := by
      intro herr
      rw [payloads_append, (hall herr).1, append_nil, hrecs]
    cases werr with
    | some e =>
      simp only [downWrite, heq]
      refine .opened (rs ++ qs) hended hswitched ⟨by simp, by simp⟩ hbody hsent' (fun h => ?_) (by simp) (by simp) hpart
      -- The write failed, so not all was taken, and the copy does not go on.
      rcases h with h | h
      · exact hpay' (hfull.mp h).2
      · simp [Copying] at h
    | none =>
      cases err with
      | none =>
        simp only [downWrite, heq]
        exact .opened (rs ++ qs) hended hswitched ⟨by simp, by simp⟩ hbody hsent' (fun _ => hpay' rfl)
          (by simp) (by simp)
          hpart
      | some e =>
        simp only [downWrite, heq]
        refine .opened (rs ++ qs) hended hswitched ⟨by simp, by simp⟩ hbody hsent' (fun _ => hpay' rfl)
          (by simp) ?_ hpart
        intro hnone
        obtain ⟨hf, hp⟩ := hlast data e hdown
        rw [readErr_eq_none (DownPc.finish.inj hnone)] at hf
        exact ⟨hf, hp⟩

theorem Answers.of_raw (rs : List Record) (pad raw : Bytes) (hended : s.framed.ended = true)
    (hswitched : s.framed.switched = true) (hrs : ∀ r ∈ rs, r.Body) (hfits : (Record.switch pad).Fits)
    (hsent : Sent s.framed.out (encodes rs ++ (Record.switch pad).encode ++ raw)) (hpart : payloads rs <+: s.answer)
    (hdown : s.down = .readRaw ∨ (∃ data err, s.down = .writeRaw data err) ∨ (∃ err, s.down = .finish err) ∨
      s.down = .done) : s.Answers := by
  refine .switched rs pad raw hended hswitched ?_ ?_ hrs hfits hsent hpart
  · intro h
    rcases hdown with h' | ⟨_, _, h'⟩ | ⟨_, h'⟩ | h' <;> exact absurd (h.symm.trans h') (by simp)
  · intro data err h
    rcases hdown with h' | ⟨_, _, h'⟩ | ⟨_, h'⟩ | h' <;> exact absurd (h.symm.trans h') (by simp)

theorem answers_downReadRaw (h : s.Answers) (hdown : s.down = .readRaw) {data : Bytes}
    (hread : s.target.read r = some (data, err, target)) :
    (s.downReadRaw data err target).Answers := by
  cases h with
  | finished rs pad hended hswitched hdone => exact absurd (hdown.symm.trans hdone) (by simp)
  | opened rs hended hswitched hframing => exact absurd hdown hframing.1
  | switched rs pad raw hended hswitched hnread hnwrite hrs hfits hsent hpart =>
    have hpart' : payloads rs <+: target.taken.flatMap (frame s.kind) := by
      rw [answer_read hread]
      exact hpart.trans (prefix_append _ _)
    cases err with
    | none =>
      refine .of_raw (s := s.downReadRaw data none target) rs pad raw hended hswitched hrs hfits hsent hpart' ?_
      by_cases hnil : data = [] <;> simp [downReadRaw, hnil]
    | some e =>
      refine .of_raw (s := s.downReadRaw data (some e) target) rs pad raw hended hswitched hrs hfits hsent hpart' ?_
      by_cases hnil : data = [] <;> simp [downReadRaw, hnil]

theorem answers_downWriteRaw (h : s.Answers) {data : Bytes} (hdown : s.down = .writeRaw data err) :
    (s.downWriteRaw data err).Answers := by
  cases h with
  | finished rs pad hended hswitched hdone => exact absurd (hdown.symm.trans hdone) (by simp)
  | opened rs hended hswitched hframing => exact absurd hdown (hframing.2 data err)
  | switched rs pad raw hended hswitched hnread hnwrite hrs hfits hsent hpart =>
    rcases hw : s.framed.out.write data with ⟨werr, out⟩
    have hsent' := hsent.write hw
    rw [append_assoc (encodes rs ++ (Record.switch pad).encode)] at hsent'
    cases werr <;> cases err
    all_goals
      simp only [downWriteRaw, hw]
      exact .of_raw rs pad (raw ++ data) hended hswitched hrs hfits hsent' hpart (by simp)

theorem answers_downSwitch (h : s.Answers) (hdown : s.down = .read) (d : Draws) : (s.downSwitch d).Answers := by
  cases h with
  | finished rs pad hended hswitched hdone => exact absurd (hdown.symm.trans hdone) (by simp)
  | switched rs pad raw hended hswitched hnread => exact absurd hdown hnread
  | opened rs hended hswitched hframing hrs hsent hpay hlast hfin hpart =>
    obtain ⟨pad, out, err, heq, hw, hfits⟩ := FramedConn.switchRaw_spec hended d
    have hsent' := (hsent.wrote hw).1
    rw [encodes_cons, encodes_nil, append_nil, ← append_nil (encodes rs ++ (Record.switch pad).encode)] at hsent'
    cases err
    all_goals
      simp only [downSwitch, heq]
      exact .of_raw rs pad [] rfl rfl hrs hfits hsent' hpart (by simp)

theorem answers_endStream {rs : List Record} (hended : s.framed.ended = false) (hswitched : s.framed.switched = false)
    (hrs : ∀ r ∈ rs, r.Body) (hsent : Sent s.framed.out (encodes rs))
    (hpay : s.framed.out.bytes = encodes rs → payloads rs = s.answer) (hpart : payloads rs <+: s.answer) (d : Draws)
    (hdown : s'.down = .done) (hframed : s'.framed = (s.framed.endStream d).1)
    (hanswer : s'.answer = s.answer) (hreason : s'.Reason) :
    s'.Answers := by
  obtain ⟨pad, out, err, heq, hfits, hsent', hfull, hbytes⟩ := FramedConn.endStream_sent hended hsent d
  rw [heq] at hframed
  refine .finished rs pad ?_ ?_ hdown hrs hfits ?_ ?_ ?_ (hanswer ▸ hpart)
  · rw [hframed]
  · rw [hframed]
    exact hswitched
  · rw [hframed]
    exact hsent'
  · rw [hframed]
    exact hfull
  · intro h
    rw [hframed] at h
    exact ⟨by rw [hanswer, hpay (hbytes (hfull.mpr h))], hreason⟩

theorem answers_downFinish (h : s.Answers) (hdown : s.down = .finish err) (d : Draws) :
    (s.downFinish d err).Answers := by
  have hpend : s.pending = [] := pending_eq_nil (by simp [hdown])
  unfold downFinish
  cases h with
  | finished rs pad hended hswitched hdone => exact absurd (hdown.symm.trans hdone) (by simp)
  | switched rs pad raw hended hswitched hnread hnwrite hrs hfits hsent hpart =>
    split
    · rw [FramedConn.endStream, if_pos hended]
      exact .of_raw rs pad raw hended hswitched hrs hfits hsent hpart (by simp)
    · exact .of_raw rs pad raw hended hswitched hrs hfits hsent hpart (by simp)
  | opened rs hended hswitched hframing hrs hsent hpay hlast hfin hpart =>
    rw [hpend, append_nil] at hpay
    split
    · rename_i hcond
      refine answers_endStream hended hswitched hrs hsent (fun hb => hpay (.inl hb)) hpart d rfl rfl rfl ?_
      rcases hcond with hudp | rfl
      · exact .inr (.inr hudp)
      · exact .inl (hfin hdown)
    · refine .opened rs hended hswitched ⟨by simp, by simp⟩ hrs hsent (fun h => ?_) (by simp) (by simp) hpart
      rcases h with hb | hcopy
      · rw [hpay (.inl hb), pending, append_nil]
        rfl
      · simp [Copying] at hcopy

theorem answers_filler (h : s.Answers) (d : FillerDraws) : Answers { s with framed := (s.framed.writeFiller d).1 } := by
  have hsame : s.framed.ended = true → s.framed.writeFiller d = (s.framed, some .closedPipe) := fun hended => by
    rw [FramedConn.writeFiller, if_pos hended]
  cases h with
  | finished rs pad hended hswitched hdone hrs hfits hsent hend hpay hpart =>
    rw [hsame hended]
    exact .finished rs pad hended hswitched hdone hrs hfits hsent hend hpay hpart
  | switched rs pad raw hended hswitched hnread hnwrite hrs hfits hsent hpart =>
    rw [hsame hended]
    exact .switched rs pad raw hended hswitched hnread hnwrite hrs hfits hsent hpart
  | opened rs hended hswitched hframing hrs hsent hpay hlast hfin hpart =>
    obtain ⟨q, out, err, heq, hw, hq, hp⟩ := FramedConn.writeFiller_spec hended d
    obtain ⟨hsent', hfull⟩ := hsent.wrote hw
    rw [← encodes_append] at hsent' hfull
    rw [heq]
    have hsame' : payloads (rs ++ [q]) = payloads rs := by
      rw [payloads_append, payloads_cons, hp, payloads_nil, append_nil, append_nil]
    refine .opened (rs ++ [q]) hended hswitched hframing ?_ hsent' ?_ hlast hfin (by rw [hsame']; exact hpart)
    · exact forall_mem_append.mpr ⟨hrs, forall_mem_singleton.mpr hq⟩
    · intro h
      rw [hsame']
      rcases h with hb | hcopy
      · exact hpay (.inl (hfull.mp hb).1)
      · exact hpay (.inr hcopy)

theorem answers_collect (h : s.Answers) (hdown : s.down = .done) (d : Draws) : (s.collect d).Answers := by
  unfold collect
  split
  · rename_i hcond
    cases h with
    | switched rs pad raw hended hswitched => exact absurd (hswitched.symm.trans hcond.2) (by simp)
    | finished rs pad hended hswitched hdone hrs hfits hsent hend hpay hpart =>
      rw [FramedConn.endStream, if_pos hended]
      exact .finished rs pad hended hswitched hdone hrs hfits hsent hend hpay hpart
    | opened rs hended hswitched hframing hrs hsent hpay hlast hfin hpart =>
      have hpend : s.pending = [] := pending_eq_nil (by simp [hdown])
      rw [hpend, append_nil] at hpay
      refine answers_endStream hended hswitched hrs hsent (fun hb => hpay (.inl hb)) hpart d hdown rfl rfl
        (.inr (.inl ?_))
      obtain ⟨pad, out, err, heq, -⟩ := FramedConn.endStream_spec hended d
      rw [heq]
      exact hcond.1
  · exact h.congr ⟨rfl, rfl, rfl, rfl, rfl, id, rfl, rfl, rfl, rfl⟩

theorem Answers.step {a : ProxyAct} (h : s.Answers) (hs : s.step a = some s') : s'.Answers := by
  cases step_inv hs with
  | upRead _ => exact h.congr s.sameAnswer_upRead
  | upWrite err _ => exact h.congr (s.sameAnswer_upWrite _ err)
  | upFinish _ => exact h.congr (s.sameAnswer_upFinish _)
  | downRead hdown hread => exact answers_downRead h hdown hread
  | downReadRaw hdown hread => exact answers_downReadRaw h hdown hread
  | downWrite d hdown => exact answers_downWrite h hdown d
  | downWriteRaw _ hdown => exact answers_downWriteRaw h hdown
  | downSwitch d _ hdown => exact answers_downSwitch h hdown d
  | downFinish d hdown => exact answers_downFinish h hdown d
  | filler d _ => exact answers_filler h d
  | collect d _ hdown _ => exact answers_collect h hdown d

theorem answers_start (kind : StreamKind) (inp : Stream) (room : Option Nat) (parts : List Bytes) (fin : Option Err)
    (tcp : Bool) (left : Int) : (start kind inp room parts fin tcp left).Answers :=
  .opened [] rfl rfl ⟨by simp [start], by simp [start]⟩ (by simp) (Sent.start room) (fun _ => rfl) (by simp [start])
    (by simp [start]) nil_prefix

end ProxyStream

section
variable {p data : Bytes} {sizes bufs : Nat → Nat} {te e : Err} {together : Bool} {k : Sink} {n : Nat} {c : FramedConn}

/-- A reader that has come to an end has read all of the answer and seen the end mark, which is there for a
    reason; or the transport has come to its end. -/
theorem ProxyStream.Answers.reads_eof {s : ProxyStream} (h : s.Answers) (hp : p <+: s.framed.out.bytes)
    (hbufs : ∀ i, 0 < bufs i)
    (hreads : reads FramedConn.read bufs n { inp := ⟨p, sizes, te, together⟩, out := k } = (data, some .eof, c)) :
    (c.done = true ∧ data = s.answer ∧ s.Reason) ∨ (c.done = false ∧ data <+: s.answer ∧ te = .eof) := by
  have hcut : ∀ {xs}, Cut xs p → xs <+: s.answer → c.done = false ∧ data <+: s.answer ∧ te = .eof := fun hc hxs => by
    obtain ⟨hdone, hdata, hte⟩ := reads_cut hc hbufs hreads
    exact ⟨hdone, hdata.trans hxs, hte rfl⟩
  cases h with
  | opened rs hended hswitched hframing hrs hsent hpay hlast hfin hpart =>
    exact .inr (hcut (cut_of_part hrs (hp.trans hsent.pre)) hpart)
  | switched rs pad raw hended hswitched hnread hnwrite hrs hfits hsent hpart =>
    have hp' := hp.trans hsent.pre
    rcases prefix_or_prefix_of_prefix hp' (prefix_append _ _) with hpre | ⟨raw', rfl⟩
    · rcases whole_or_cut hrs hfits hpre with rfl | hc
      · rw [← append_nil (Record.switch pad).encode] at hreads
        cases (reads_switch hrs hfits hbufs hreads).2
      · exact .inr (hcut hc hpart)
    · rw [append_assoc] at hreads
      cases (reads_switch hrs hfits hbufs hreads).2
  | finished rs pad hended hswitched hdown hrs hfits hsent hend hpay hpart =>
    rcases whole_or_cut hrs hfits (hp.trans hsent.pre) with rfl | hc
    · have hfull : s.framed.out.bytes = encodes rs ++ (Record.finish pad).encode :=
        (hsent.pre.eq_of_length_le hp.length_le)
      obtain ⟨hanswer, hreason⟩ := hpay hfull
      obtain ⟨hdata, hdone⟩ := reads_finish hrs hfits hbufs hreads
      exact .inl ⟨hdone, hdata.trans hanswer, hreason⟩
    · exact .inr (hcut hc hpart)

end

/-- If the reads of the client come to an end, they have returned what the server read from the target and
    seen the end mark, and the target came to its end and that is all it sent, or the server had read the end
    mark of the client, or the stream carries datagrams; or they have seen no end mark, and the transport has
    come to its own end behind a part of the answer. -/
theorem answer_end_tells {kind : StreamKind} {inp : Stream} {room : Option Nat} {parts : List Bytes} {fin : Option Err}
    {tcp : Bool} {left : Int} {as : List ProxyAct} {s : ProxyStream} {p data : Bytes} {sizes bufs : Nat → Nat}
    {te : Err}
    {together : Bool} {k : Sink} {n : Nat} {c : FramedConn}
    (hrun : AnyRun ProxyStream.step (.start kind inp room parts fin tcp left) as s)
    (hp : p <+: s.framed.out.bytes) (hbufs : ∀ i, 0 < bufs i)
    (hreads : reads FramedConn.read bufs n { inp := ⟨p, sizes, te, together⟩, out := k } = (data, some .eof, c)) :
    s.target.taken <+: parts ∧
      ((c.done = true ∧ data = s.target.taken.flatMap (ProxyStream.frame kind) ∧
          ((fin = some .eof ∧ s.target.taken = parts) ∨ s.framed.done = true ∨ kind = .udp)) ∨
        (c.done = false ∧ data <+: s.target.taken.flatMap (ProxyStream.frame kind) ∧ te = .eof)) := by
  have hanswers : s.Answers := hrun.invariant (fun h _ hs => h.step hs)
    (ProxyStream.answers_start kind inp room parts fin tcp left)
  have htargets : ProxyStream.Targets (.start kind inp room parts fin tcp left) s :=
    hrun.invariant (fun h _ hs => h.step hs) ⟨rfl, rfl, rfl⟩
  have hkind : s.kind = kind := htargets.kind
  have hfin : s.target.fin = fin := htargets.fin
  have hparts : s.target.taken ++ s.target.parts = parts := htargets.parts
  have hanswer : s.answer = s.target.taken.flatMap (ProxyStream.frame kind) := by rw [ProxyStream.answer, hkind]
  refine ⟨⟨_, hparts⟩, ?_⟩
  rcases hanswers.reads_eof hp hbufs hreads with ⟨hdone, hdata, hreason⟩ | ⟨hdone, hdata, hte⟩
  · refine .inl ⟨hdone, hdata.trans hanswer, ?_⟩
    rcases hreason with ⟨heof, hnil⟩ | hclient | hudp
    · rw [hnil, append_nil] at hparts
      exact .inl ⟨hfin ▸ heof, hparts⟩
    · exact .inr (.inl hclient)
    · exact .inr (.inr (hkind ▸ hudp))
  · exact .inr ⟨hdone, hanswer ▸ hdata, hte⟩

def plainDraws : Draws := { paddedDraws with budget := none }

def clientReads (s : ProxyStream) : Bytes × Option Err × FramedConn :=
  reads FramedConn.read (fun _ => 16) 3 { inp := ⟨s.framed.out.bytes, fun _ => 0, .eof, false⟩, out := ⟨[], none⟩ }

def wholeStream : ProxyStream := .start .tcp ⟨[], fun _ => 0, .eof, false⟩ none [[104], [105]] (some .eof) true 0

def wholeRun : List ProxyAct :=
  [.downRead .part, .downWrite (fun _ => plainDraws), .filler emptyFiller, .downRead .lastPart,
    .downWrite (fun _ => plainDraws), .downFinish plainDraws]

theorem answer_end_tells_whole : ∃ s c, AnyRun ProxyStream.step wholeStream wholeRun s ∧
    clientReads s = ([104, 105], some .eof, c) ∧ c.done = true ∧
    [104, 105] = s.target.taken.flatMap (ProxyStream.frame .tcp) ∧
    ((some Err.eof = some .eof ∧ s.target.taken = [[104], [105]]) ∨ s.framed.done = true ∨ StreamKind.tcp = .udp) := by
  obtain ⟨s, hrun, hdata, heof, hdone⟩ := AnyRun.exists_of_exec (show ∃ s ∈ exec ProxyStream.step wholeStream wholeRun,
    (clientReads s).1 = [104, 105] ∧ (clientReads s).2.1 = some .eof ∧
    (clientReads s).2.2.done = true by decide +kernel)
  have hreads : clientReads s = ([104, 105], some .eof, (clientReads s).2.2) := by rw [← hdata, ← heof]
  have hbufs : ∀ i : Nat, 0 < (fun _ => 16) i := fun _ => Nat.succ_pos _
  obtain ⟨-, ⟨-, hwhole⟩ | ⟨hpart, -⟩⟩ := answer_end_tells hrun prefix_rfl hbufs hreads
  · exact ⟨s, _, hrun, hreads, hdone, hwhole⟩
  · exact absurd (hpart.symm.trans hdone) (by simp)

/-- The client ends its side at once; the target sends one byte and is reset. -/
def resetStream : ProxyStream :=
  .start .tcp ⟨[0x17, 0x03, 0x03, 0, 2, 0, 0], fun _ => 0, .eof, false⟩ none [[104]]
    (some (.text "connection reset by peer"))
    true 0

def resetRun : List ProxyAct :=
  [.upRead, .upFinish, .downRead .part, .downWrite (fun _ => plainDraws), .downRead .fin, .downFinish plainDraws,
    .collect plainDraws]

/-- The first byte of an answer is on the connection when the transport comes to its end. -/
def partRun : List ProxyAct := [.downRead .part, .downWrite (fun _ => plainDraws)]

theorem answer_cut_ends_cleanly :
    (∃ s, AnyRun ProxyStream.step resetStream resetRun s ∧ s.target.fin = some (.text "connection reset by peer") ∧
      ∃ c, clientReads s = ([104], some .eof, c) ∧ c.done = true) ∧
    ∃ s, AnyRun ProxyStream.step wholeStream partRun s ∧ s.target.parts = [[105]] ∧
      ∃ c, clientReads s = ([104], some .eof, c) ∧ c.done = false := by
  refine ⟨?_, ?_⟩
  · refine Run.exists_of_exec (Q := fun s => s.target.fin = some (.text "connection reset by peer") ∧
      (clientReads s).1 = [104] ∧ (clientReads s).2.1 = some .eof ∧
      (clientReads s).2.2.done = true) (by decide +kernel) ?_
    rintro s - ⟨hfin, hdata, heof, hdone⟩
    exact ⟨hfin, (clientReads s).2.2, by rw [← hdata, ← heof], hdone⟩
  · refine Run.exists_of_exec (Q := fun s => s.target.parts = [[105]] ∧
      (clientReads s).1 = [104] ∧ (clientReads s).2.1 = some .eof ∧
      (clientReads s).2.2.done = false) (by decide +kernel) ?_
    rintro s - ⟨hparts, hdata, heof, hdone⟩
    exact ⟨hparts, (clientReads s).2.2, by rw [← hdata, ← heof], hdone⟩

end Whispera
