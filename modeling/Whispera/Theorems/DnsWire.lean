import Whispera.DnsWire

/-! No response makes the reader fail, and one whose owner names end with the root or are a single pointer is
read to its last record. A name of labels that ends with a pointer is not: the reader takes the pointer for a
label. -/

namespace Whispera
open List Option Exec Net BigEndian

theorem safe_wordAt {b : Bytes} {p : Nat} (h : p + 1 < b.length) : Safe (wordAt b p) fun _ => True := by
  refine safe_index_bind fun _ _ => ?_
  exact safe_index_bind fun _ _ => trivial

theorem safe_questionRound (r : Bytes) (s : Nat) : Safe (questionRound r s) fun x =>
    (∀ t, x = .inl t → True ∧ r.length - t < r.length - s) ∧ ∀ a, x = .inr a → True := by
  unfold questionRound
  split
  · refine safe_index_bind fun b _ => ?_
    split
    · simp
    · split
      · simp
      · simp
        omega
  · simp

theorem safe_labelRound (r : Bytes) (s : Nat) : Safe (labelRound r s) fun x =>
    (∀ t, x = .inl t → True ∧ r.length - t < r.length - s) ∧ ∀ a, x = .inr a → True := by
  unfold labelRound
  split
  · refine safe_index_bind fun b _ => ?_
    split
    · simp
    · simp
      omega
  · simp

theorem safe_skipOwner {r : Bytes} {s : Nat} (h : s < r.length) : Safe (skipOwner r s) fun _ => True := by
  refine safe_index_bind fun b _ => ?_
  split
  · trivial
  · refine (safe_loop (I := fun _ => True) (m := fun t => r.length - t)
      (fun t _ => safe_labelRound r t) _ s trivial ?_).bind
      fun _ _ => trivial
    omega

theorem safe_recordRound (r : Bytes) (ancount : Nat) (w : RecordWalk) : Safe (recordRound r ancount w) fun x =>
    (∀ t, x = .inl t → True ∧ ancount - t.i < ancount - w.i) ∧ ∀ a, x = .inr a → True := by
  unfold recordRound
  split
  · rename_i h
    refine (safe_skipOwner h.2).bind fun offset _ => ?_
    split
    · simp
    · refine (safe_wordAt (by omega)).bind fun rtype _ => (safe_wordAt (by omega)).bind fun rdlen _ => ?_
      dsimp only
      split
      · simp
      · split
        · refine safe_slice_bind fun ip _ => ?_
          simp
          omega
        · split
          · refine safe_slice_bind fun ip _ => ?_
            simp
            omega
          · simp
            omega
  · simp

theorem safe_parseDNSResponse (r : Bytes) (wantID : UInt8 × UInt8) :
    Safe (parseDNSResponse r wantID) fun _ => True := by
  refine (safe_failIf _ _).bind fun _ hlen => ?_
  refine safe_index_bind fun _ _ => safe_index_bind fun _ _ => ?_
  refine (safe_failIf _ _).bind fun _ _ => safe_index_bind fun flags _ => ?_
  refine (safe_failIf _ _).bind fun _ _ => (safe_wordAt (by omega)).bind fun ancount _ => ?_
  refine (safe_failIf _ _).bind fun _ _ => ?_
  refine (safe_loop (I := fun _ => True) (m := fun t => r.length - t) (fun t _ => safe_questionRound r t) _ 12 trivial
    (by omega)).bind fun offset _ => ?_
  refine (safe_loop (I := fun _ => True) (m := fun w : RecordWalk => ancount - w.i)
    (fun w _ => safe_recordRound r ancount w) _ _
    trivial (by dsimp only; omega)).bind fun ips _ => ?_
  exact (safe_failIf _ _).bind fun _ _ => trivial

/-- A name: labels, and then the root or a pointer. -/
structure DnsName where
  labels : List Bytes
  pointer : Option (UInt8 × UInt8)
  label : ∀ l ∈ labels, 0 < l.length ∧ l.length < 64
  mark : ∀ p ∈ pointer, p.1 &&& 0xC0 = 0xC0

def encodeLabels (labels : List Bytes) : Bytes := labels.flatMap fun l => UInt8.ofNat l.length :: l

def DnsName.last (n : DnsName) : Bytes := n.pointer.elim [0] fun p => [p.1, p.2]

def DnsName.encode (n : DnsName) : Bytes := encodeLabels n.labels ++ n.last

/-- A name without labels before a pointer. -/
def DnsName.Simple (n : DnsName) : Prop := n.labels = [] ∨ n.pointer = none

/-- A record, with its class and time to live in one. -/
structure DnsRecord where
  owner : DnsName
  rtype : UInt16
  params : Block 6
  data : Bytes
  data_lt : data.length < 65536
  a : rtype = 1 → data.length = 4
  aaaa : rtype = 28 → data.length = 16

def DnsRecord.encode (r : DnsRecord) : Bytes :=
  r.owner.encode ++ (putUint16 r.rtype.toNat ++ (r.params.val ++ (putUint16 r.data.length ++ r.data)))

def DnsRecord.addresses (r : DnsRecord) : List IP := if r.rtype = 1 ∨ r.rtype = 28 then [r.data] else []

/-- A response to one question that reports no error, with what follows its answers. -/
structure DnsResponse where
  id : UInt8 × UInt8
  flags : UInt8 × UInt8
  counts : Block 4
  question : DnsName
  qtype : Block 4
  answers : List DnsRecord
  rest : Bytes
  rcode : flags.2 &&& 0x0F = 0
  answers_lt : answers.length < 65536

namespace DnsResponse

def header (m : DnsResponse) : Bytes :=
  [m.id.1, m.id.2, m.flags.1, m.flags.2, 0, 1] ++ (putUint16 m.answers.length ++ m.counts.val)

def encode (m : DnsResponse) : Bytes :=
  m.header ++ (m.question.encode ++ (m.qtype.val ++ (m.answers.flatMap DnsRecord.encode ++ m.rest)))

def addresses (m : DnsResponse) : List IP := m.answers.flatMap DnsRecord.addresses

end DnsResponse

theorem wordAt_at (pre : Bytes) {r tail : Bytes} {n p : Nat} (hr : r = pre ++ (putUint16 n ++ tail))
    (hp : p = pre.length)
    (hn : n < 65536) : wordAt r p = ret n := by
  obtain ⟨hi, lo, hput⟩ : ∃ hi lo, putUint16 n = [hi, lo] := ⟨_, _, rfl⟩
  have hget := get_putUint16 hn
  rw [hput] at hr hget
  rw [wordAt, index_at hr (by rw [hp]), ret_bind,
    index_at (a := pre ++ [hi]) (b := tail) (x := lo) (by simp [hr]) (by simp [hp]),
    ret_bind]
  exact congrArg ret (by simpa [BigEndian.get] using hget)

theorem pointer_iff (b : UInt8) : b &&& 0xC0 = 0xC0 ↔ 192 ≤ b.toNat := by
  have hall : ∀ n < 256, (UInt8.ofNat n &&& 0xC0 = 0xC0 ↔ 192 ≤ n) := by decide +kernel
  simpa using hall b.toNat b.toNat_lt

theorem loop_labels {body : Nat → Exec (Nat ⊕ Nat)} {r : Bytes}
    (hbody : ∀ pre l tail, r = pre ++ (UInt8.ofNat l.length :: (l ++ tail)) → 0 < l.length ∧ l.length < 64 →
      body pre.length = ret (.inl (pre.length + (l.length + 1)))) (labels : List Bytes) :
    ∀ (pre tail : Bytes) (n : Nat), (∀ l ∈ labels, 0 < l.length ∧ l.length < 64) →
    r = pre ++ (encodeLabels labels ++ tail) →
      loop body (labels.length + n) pre.length = loop body n (pre ++ encodeLabels labels).length := by
  induction labels with
  | nil =>
    intro pre tail n _ _
    simp [encodeLabels]
  | cons l labels ih =>
    intro pre tail n hl hr
    have hr' : r = pre ++ (UInt8.ofNat l.length :: (l ++ (encodeLabels labels ++ tail))) := by
      simpa [encodeLabels] using hr
    have hnext := ih (pre ++ (UInt8.ofNat l.length :: l)) tail n (fun l hl' => hl l (mem_cons_of_mem _ hl'))
      (by simp [hr'])
    rw [length_cons, add_right_comm, loop_next _ (hbody pre l _ hr' (hl l mem_cons_self))]
    simpa [encodeLabels] using hnext

section
variable {r pre tail l : Bytes} {n : DnsName}

theorem label_byte (hl : 0 < l.length ∧ l.length < 64) :
    (UInt8.ofNat l.length).toNat = l.length ∧ UInt8.ofNat l.length ≠ 0 ∧ ¬UInt8.ofNat l.length &&& 0xC0 = 0xC0 := by
  have htoNat : (UInt8.ofNat l.length).toNat = l.length := by
    simp
    omega
  refine ⟨htoNat, fun h => ?_, ?_⟩
  · rw [h] at htoNat
    exact absurd htoNat (by simp; omega)
  · rw [pointer_iff, htoNat]
    omega

theorem questionRound_label (hr : r = pre ++ (UInt8.ofNat l.length :: (l ++ tail)))
    (hl : 0 < l.length ∧ l.length < 64) :
    questionRound r pre.length = ret (.inl (pre.length + (l.length + 1))) := by
  obtain ⟨htoNat, hzero, hmark⟩ := label_byte hl
  rw [questionRound, if_pos (by simp [hr]), index_at hr rfl, ret_bind, if_neg hzero, if_neg hmark, htoNat]

theorem labelRound_label (hr : r = pre ++ (UInt8.ofNat l.length :: (l ++ tail))) (hl : 0 < l.length ∧ l.length < 64) :
    labelRound r pre.length = ret (.inl (pre.length + (l.length + 1))) := by
  obtain ⟨htoNat, hzero, -⟩ := label_byte hl
  rw [labelRound, if_pos (by simp [hr]), index_at hr rfl, ret_bind, if_neg hzero, htoNat]

theorem length_labels_le (labels : List Bytes) : labels.length ≤ (encodeLabels labels).length := by
  induction labels with
  | nil => simp
  | cons l labels ih => simp [encodeLabels] at ih ⊢; omega

section
variable (hr : r = pre ++ (n.encode ++ tail))
include hr

theorem encode_split : r = pre ++ (encodeLabels n.labels ++ (n.last ++ tail)) ∧ n.labels.length < r.length := by
  have hr' : r = pre ++ (encodeLabels n.labels ++ (n.last ++ tail)) := by simpa [DnsName.encode] using hr
  have hlast : 0 < n.last.length := by
    unfold DnsName.last
    cases n.pointer <;> simp
  have := length_labels_le n.labels
  refine ⟨hr', ?_⟩
  simp [hr']
  omega

theorem skip_question : loop (questionRound r) (r.length + 1) pre.length = ret (pre.length + n.encode.length) := by
  obtain ⟨hr', hlt⟩ := encode_split hr
  have hloop := loop_labels (fun pre l tail => questionRound_label) n.labels pre _ 1 n.label hr'
  have hlast : questionRound r (pre ++ encodeLabels n.labels).length = ret (.inr (pre.length + n.encode.length)) := by
    rw [← append_assoc] at hr'
    cases hp : n.pointer with
    | none =>
      simp only [DnsName.encode, DnsName.last, hp, elim_none] at hr' ⊢
      rw [questionRound, if_pos (by simp [hr']), index_at hr' rfl, ret_bind, if_pos rfl]
      simp
      omega
    | some p =>
      have hmark := n.mark p hp
      simp only [DnsName.encode, DnsName.last, hp, elim_some] at hr' ⊢
      rw [questionRound, if_pos (by simp [hr']), index_at hr' rfl, ret_bind, if_neg, if_pos hmark]
      · simp
        omega
      · rintro h
        rw [h] at hmark
        cases hmark
  rw [loop_end 0 hlast] at hloop
  exact loop_of_le hloop (by omega)

theorem skipOwner_labels (hn : n.labels ≠ [] ∨ n.pointer = none) {k stop : Nat}
    (hk : k ≤ 2) (hstop : loop (labelRound r) k (pre ++ encodeLabels n.labels).length = ret stop) :
    skipOwner r pre.length = ret (stop + 1) := by
  obtain ⟨hr', hlt⟩ := encode_split hr
  have hloop := loop_labels (fun pre l tail => labelRound_label) n.labels pre _ k n.label hr'
  obtain ⟨b, more, hb, hmark⟩ : ∃ b more, r = pre ++ b :: more ∧ ¬b &&& 0xC0 = 0xC0 := by
    cases hl : n.labels with
    | nil =>
      have hp := hn.resolve_left fun h => h hl
      exact ⟨0, tail, by simpa [hl, encodeLabels, DnsName.last, hp] using hr', by decide⟩
    | cons l labels =>
      rw [hl] at hr'
      exact ⟨_, _, by simpa [encodeLabels] using hr', (label_byte (n.label l (hl ▸ mem_cons_self))).2.2⟩
  rw [skipOwner, index_at hb rfl, ret_bind, if_neg hmark, loop_of_le (hloop.trans hstop) (by omega), ret_bind]

end

theorem skipOwner_simple (hn : n.Simple) (hr : r = pre ++ (n.encode ++ tail)) :
    skipOwner r pre.length = ret (pre.length + n.encode.length) := by
  obtain ⟨hr', -⟩ := encode_split hr
  cases hp : n.pointer with
  | none =>
    simp only [DnsName.last, hp, elim_none, ← append_assoc] at hr'
    rw [append_assoc _ [0]] at hr'
    have hstop : labelRound r (pre ++ encodeLabels n.labels).length =
        ret (.inr (pre ++ encodeLabels n.labels).length) := by
      rw [labelRound, if_pos (by simp [hr']), index_at hr' rfl, ret_bind, if_pos rfl]
    rw [skipOwner_labels hr (.inr hp) (by omega) (loop_end 0 hstop)]
    simp [DnsName.encode, DnsName.last, hp]
    omega
  | some p =>
    have hl : n.labels = [] := hn.resolve_right fun h => some_ne_none p (hp.symm.trans h)
    simp only [hl, encodeLabels, DnsName.last, hp, elim_some, flatMap_nil, nil_append] at hr'
    rw [skipOwner, index_at hr' rfl, ret_bind, if_pos (n.mark p hp)]
    simp [DnsName.encode, DnsName.last, hp, hl, encodeLabels]

theorem skipOwner_not_simple (hn : ¬n.Simple) (hr : r = pre ++ (n.encode ++ tail)) (htail : tail.length < 191) :
    ∃ offset, skipOwner r pre.length = ret offset ∧ r.length < offset := by
  obtain ⟨hr', -⟩ := encode_split hr
  obtain ⟨hl, hp⟩ := not_or.mp hn
  obtain ⟨p, hp⟩ := ne_none_iff_exists'.mp hp
  have hmark := (pointer_iff p.1).mp (n.mark p hp)
  simp only [DnsName.last, hp, elim_some, ← append_assoc] at hr'
  rw [append_assoc _ [p.1, p.2]] at hr'
  have hnext : labelRound r (pre ++ encodeLabels n.labels).length =
      ret (.inl ((pre ++ encodeLabels n.labels).length + (p.1.toNat + 1))) := by
    rw [labelRound, if_pos (by simp [hr']), index_at hr' rfl, ret_bind, if_neg]
    rintro h
    rw [h] at hmark
    exact absurd hmark (by decide)
  have hlen : r.length = (pre ++ encodeLabels n.labels).length + (2 + tail.length) := by
    simp [hr']
    omega
  have hstop : labelRound r ((pre ++ encodeLabels n.labels).length + (p.1.toNat + 1)) =
      ret (.inr ((pre ++ encodeLabels n.labels).length + (p.1.toNat + 1))) := by
    rw [labelRound, if_neg (by omega)]
  exact ⟨_, skipOwner_labels hr (.inl hl) (by omega) ((loop_next 1 hnext).trans (loop_end 0 hstop)), by omega⟩

theorem recordRound_simple {rec : DnsRecord} (hn : rec.owner.Simple) (hr : r = pre ++ (rec.encode ++ tail))
    {i ancount : Nat}
    (hi : i < ancount) (ips : List IP) : recordRound r ancount ⟨i, pre.length, ips⟩ =
      ret (.inl ⟨i + 1, (pre ++ rec.encode).length, ips ++ rec.addresses⟩) := by
  have hr' : r = pre ++ (rec.owner.encode ++
    (putUint16 rec.rtype.toNat ++ (rec.params.val ++ (putUint16 rec.data.length ++
    (rec.data ++ tail))))) := by simpa [DnsRecord.encode] using hr
  have hparams := rec.params.length_val
  have hlen : r.length = pre.length + rec.owner.encode.length + 10 + rec.data.length + tail.length := by
    simp [hr', hparams]
    omega
  have htype : wordAt r (pre.length + rec.owner.encode.length) = ret rec.rtype.toNat :=
    wordAt_at (pre ++ rec.owner.encode) (by simpa using hr') (by simp) rec.rtype.toNat_lt
  have hrdlen : wordAt r (pre.length + rec.owner.encode.length + 8) = ret rec.data.length :=
    wordAt_at (pre ++ rec.owner.encode ++ putUint16 rec.rtype.toNat ++ rec.params.val) (by simpa using hr')
      (by simp [hparams]; omega) rec.data_lt
  have hdata : ∀ n, rec.data.length = n → slice r (pre.length + rec.owner.encode.length + 10 : Nat)
      (pre.length + rec.owner.encode.length + 10 + n : Nat) = ret rec.data := by
    intro n hn
    refine slice_at (a := pre ++ rec.owner.encode ++ putUint16 rec.rtype.toNat ++ rec.params.val ++
      putUint16 rec.data.length)
      (c := tail) (by simpa using hr') ?_ ?_ <;> simp [hparams, hn] <;> omega
  have hend : (pre ++ rec.encode).length = pre.length + rec.owner.encode.length + 10 + rec.data.length := by
    simp [DnsRecord.encode, hparams]
    omega
  rw [recordRound, if_pos ⟨hi, by simp only; omega⟩, skipOwner_simple hn hr', ret_bind, if_neg (by omega),
    htype, ret_bind, hrdlen,
    ret_bind, if_neg (by omega), hend]
  have htoNat : ∀ t : UInt16, rec.rtype.toNat = t.toNat ↔ rec.rtype = t := fun _ => UInt16.toNat_inj
  by_cases h1 : rec.rtype = 1
  · rw [if_pos ⟨(htoNat 1).mpr h1, rec.a h1⟩, hdata 4 (rec.a h1), ret_bind, DnsRecord.addresses, if_pos (.inl h1)]
  · rw [if_neg fun h => h1 ((htoNat 1).mp h.1)]
    by_cases h28 : rec.rtype = 28
    · rw [if_pos ⟨(htoNat 28).mpr h28, rec.aaaa h28⟩, hdata 16 (rec.aaaa h28), ret_bind, DnsRecord.addresses,
        if_pos (.inr h28)]
    · rw [if_neg fun h => h28 ((htoNat 28).mp h.1), DnsRecord.addresses, if_neg (not_or.mpr ⟨h1, h28⟩), append_nil]

theorem loop_records {ancount : Nat} (records : List DnsRecord) : ∀ (pre : Bytes) (i : Nat) (ips : List IP),
    (∀ rec ∈ records, rec.owner.Simple) → r = pre ++ (records.flatMap DnsRecord.encode ++ tail) →
    i + records.length = ancount →
      loop (recordRound r ancount) (records.length + 1) ⟨i, pre.length, ips⟩ =
        ret (ips ++ records.flatMap DnsRecord.addresses) := by
  induction records with
  | nil =>
    intro pre i ips _ _ hi
    have hstop : recordRound r ancount ⟨i, pre.length, ips⟩ = ret (.inr ips) := if_neg fun h =>
      absurd h.1 (not_lt.mpr hi.ge)
    rw [flatMap_nil, append_nil]
    exact loop_end 0 hstop
  | cons rec records ih =>
    intro pre i ips hn hr hi
    have hr' : r = pre ++ (rec.encode ++ (records.flatMap DnsRecord.encode ++ tail)) := by simpa using hr
    simp only [length_cons] at hi ⊢
    rw [loop_next _ (recordRound_simple (hn rec mem_cons_self) hr' (by omega) ips),
      ih (pre ++ rec.encode) (i + 1) _ (fun rec' h => hn rec' (mem_cons_of_mem _ h)) (by simpa using hr') (by omega)]
    simp

end

theorem parseDNSResponse_eq (m : DnsResponse) (hne : m.answers ≠ []) : parseDNSResponse m.encode m.id =
    (loop (recordRound m.encode m.answers.length) (m.answers.length + 1)
      { offset := (m.header ++ m.question.encode ++ m.qtype.val).length } >>= fun ips =>
        failIf (ips = []) "dns: no A/AAAA records in response" >>= fun _ => ret ips) := by
  have hheader : m.header.length = 12 := by simp [DnsResponse.header, m.counts.length_val]
  have hlen : ¬m.encode.length < 12 := by simp [DnsResponse.encode, hheader]
  have hindex : ∀ (n : Nat) (x : UInt8), m.header[n]? = some x → index m.encode n = ret x := by
    intro n x hx
    refine index_eq ?_
    rw [DnsResponse.encode, getElem?_append_left (List.getElem?_eq_some_iff.mp hx).1, hx]
  have hcount : wordAt m.encode 6 = ret m.answers.length :=
    wordAt_at [m.id.1, m.id.2, m.flags.1, m.flags.2, 0, 1]
      (by simp [DnsResponse.encode, DnsResponse.header]; rfl) rfl m.answers_lt
  have hquestion := skip_question (show m.encode = m.header ++ (m.question.encode ++ _) from rfl)
  rw [hheader] at hquestion
  rw [parseDNSResponse, failIf_of_not _ hlen, ret_bind, hindex 0 m.id.1 rfl, ret_bind, hindex 1 m.id.2 rfl, ret_bind,
    failIf_of_not _ (by simp), ret_bind, hindex 3 m.flags.2 rfl, ret_bind]
  dsimp only
  rw [failIf_of_not _ (by simp [m.rcode]), ret_bind, hcount, ret_bind, failIf_of_not _ (by simpa using hne),
    ret_bind, hquestion,
    ret_bind]
  simp [hheader, m.qtype.length_val, add_assoc]

theorem one_lt_words : 1 < 65536 := by decide

theorem four_lt_words : 4 < 65536 := by decide

def oneAddress (n : DnsName) : DnsResponse where
  id := (0, 0)
  flags := (0x81, 0x80)
  counts := ⟨[0, 0, 0, 0], rfl⟩
  question := ⟨[], none, nofun, nofun⟩
  qtype := ⟨[0, 1, 0, 1], rfl⟩
  answers := [⟨n, 1, ⟨[0, 1, 0, 0, 0, 60], rfl⟩, [10, 0, 0, 1], four_lt_words, fun _ => rfl, nofun⟩]
  rest := []
  rcode := rfl
  answers_lt := one_lt_words

theorem parse_oneAddress {n : DnsName} (hn : ¬n.Simple) :
    parseDNSResponse (oneAddress n).encode (oneAddress n).id = err "dns: no A/AAAA records in response" := by
  rw [parseDNSResponse_eq _ (cons_ne_nil _ _)]
  have hr : (oneAddress n).encode =
    ((oneAddress n).header ++ (oneAddress n).question.encode ++ (oneAddress n).qtype.val) ++
      (n.encode ++ (putUint16 1 ++ ([0, 1, 0, 0, 0, 60] ++ (putUint16 4 ++ [10, 0, 0, 1])))) := by
    simp [oneAddress, DnsResponse.encode, DnsRecord.encode]
  obtain ⟨offset, hskip, hlt⟩ := skipOwner_not_simple hn hr (by simp)
  have hstop : recordRound (oneAddress n).encode (oneAddress n).answers.length
      { offset := ((oneAddress n).header ++ (oneAddress n).question.encode ++ (oneAddress n).qtype.val).length } =
        ret (.inr []) := by
    rw [recordRound, if_pos, hskip, ret_bind, if_pos (by omega)]
    refine ⟨Nat.zero_lt_one, ?_⟩
    simp [oneAddress, DnsResponse.encode, DnsRecord.encode]
  rw [loop_end _ hstop]
  rfl

/-- The reader returns the addresses of every response whose owner names are of some kind iff no name of that
    kind has labels before a pointer. -/
theorem parseDNSResponse_iff (N : DnsName → Prop) : (∀ r wantID, Safe (parseDNSResponse r wantID) fun _ => True) ∧
    ((∀ m : DnsResponse, (∀ rec ∈ m.answers, N rec.owner) → m.addresses ≠ [] →
      parseDNSResponse m.encode m.id = ret m.addresses) ↔ ∀ n, N n → n.Simple) := by
  refine ⟨safe_parseDNSResponse, fun h n hN => ?_, fun h m hN hne => ?_⟩
  · by_contra hn
    have heq := h (oneAddress n) (forall_mem_singleton.mpr hN) (cons_ne_nil _ _)
    rw [parse_oneAddress hn] at heq
    cases heq
  · have hanswers : m.answers ≠ [] := fun hnil => hne (by rw [DnsResponse.addresses, hnil]; rfl)
    have hr : m.encode = (m.header ++ m.question.encode ++ m.qtype.val) ++
        (m.answers.flatMap DnsRecord.encode ++ m.rest) := by
      simp [DnsResponse.encode]
    rw [parseDNSResponse_eq m hanswers, loop_records m.answers (m.header ++ m.question.encode ++ m.qtype.val) 0 []
      (fun rec hrec => h rec.owner (hN rec hrec)) hr (zero_add _), ret_bind]
    exact (congrArg (· >>= fun _ => ret _) (failIf_of_not _ hne)).trans rfl

/-- The owner name is `a` before a pointer to the name of the question. -/
theorem parseDNSResponse_mixed_name :
    parseDNSResponse [0, 0, 0x81, 0x80, 0, 1, 0, 1, 0, 0, 0, 0, 1, 98, 0, 0, 1, 0, 1, 1, 97, 0xC0, 12, 0, 1,
      0, 1, 0, 0, 0, 60, 0, 4,
      10, 0, 0, 1] (0, 0) = err "dns: no A/AAAA records in response" := by
  decide +kernel

end Whispera
