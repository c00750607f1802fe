import Mathlib.Data.List.Dedup
import Whispera.ServeConn
import Whispera.Theorems.KeyLimits

/-! A session leaves the table when the first of its connections is released, and when it is too old, whether
it is served or not. -/

namespace Whispera
open List Option Net Processes Table Transition

namespace ConnServer

def marked (conns : List ServedConn) (user : KeyID) (sid : SessionID) : Bool :=
  conns.any fun c => c.user == user && c.sid == sid && c.torrent && c.phase != .released

def counts (conns : List ServedConn) (c : ServedConn) : Bool := c.phase == .serving && !marked conns c.user c.sid

/-- The distinct sessions of a key with an open connection that were not marked as torrents. -/
def activeSessions (s : ConnServer) (user : KeyID) : List SessionID :=
  ((s.conns.filter fun c => c.user == user && counts s.conns c).map ServedConn.sid).dedup

def stored (s : ConnServer) (user : KeyID) (sid : SessionID) : Option KeySession :=
  (inner s.limiter.manager.sessions user).lookup sid

/-- A connection is released only when no other of its session is served, and the collection runs only while
    no session that counts is too old. -/
def Kept (s : ConnServer) : Act → Prop
  | .release i => ∀ c ∈ s.conns[i]?, ∀ d ∈ s.conns, d.phase = .serving → d.user = c.user → d.sid ≠ c.sid
  | .gcExpired now => ∀ c ∈ s.conns, counts s.conns c = true →
    ∀ sess ∈ s.stored c.user c.sid, now - sess.lastSeen ≤ s.limiter.manager.ttl c.user
  | _ => True

instance (s : ConnServer) (act) : Decidable (s.Kept act) := by
  unfold Kept
  split <;> infer_instance

/-- The limits are those at the start, each session that counts is in the table, and no key has more than the
    cap there. -/
structure Capped (limit : KeyID → KeyLimit) (s : ConnServer) : Prop where
  limits : ∀ user, s.limiter.manager.limitsFor user = limit user
  calls : ∀ found n, .evict found n ∉ s.limiter.calls
  stored : ∀ c ∈ s.conns, counts s.conns c = true → ∃ sess, s.stored c.user c.sid = some sess ∧ sess.isTorrent = false
  cap : ∀ user, 0 < (limit user).maxActiveSessions →
    (KeyLimits.normalCount (inner s.limiter.manager.sessions user) : Int) ≤ (limit user).maxActiveSessions

section
variable {limit : KeyID → KeyLimit} {s t : ConnServer} {i : Nat} {c : ServedConn}

theorem connIn_eq_some {phase : ConnPhase} (h : s.connIn i phase = some c) :
    s.conns[i]? = some c ∧ c.phase = phase := by
  obtain ⟨hc, hphase⟩ := filter_eq_some_iff.mp h
  exact ⟨hc, eq_of_beq hphase⟩

variable {conns : List ServedConn}

theorem marked_iff {user : KeyID} {sid : SessionID} : marked conns user sid = true ↔
      ∃ c ∈ conns, c.user = user ∧ c.sid = sid ∧ c.torrent = true ∧ c.phase ≠ .released := by
  simp only [marked, List.any_eq_true, Bool.and_eq_true, beq_iff_eq, bne_iff_ne, and_assoc]

theorem counts_iff : counts conns c = true ↔ c.phase = .serving ∧
      ∀ d ∈ conns, d.user = c.user → d.sid = c.sid → d.torrent = true → d.phase = .released := by
  rw [counts, Bool.and_eq_true, beq_iff_eq, Bool.not_eq_true', Bool.eq_false_iff, Ne, marked_iff]
  refine and_congr_right fun _ => ⟨fun h d hd huser hsid htorrent => ?_, fun h => ?_⟩
  · exact Decidable.byContradiction fun hphase => h ⟨d, hd, huser, hsid, htorrent, hphase⟩
  · rintro ⟨d, hd, huser, hsid, htorrent, hphase⟩
    exact hphase (h d hd huser hsid htorrent)

theorem counts_append {d : ServedConn} (h : counts (conns ++ [d]) c = true) : counts conns c = true := by
  rw [counts_iff] at h ⊢
  exact ⟨h.1, fun e he => h.2 e (mem_append_left _ he)⟩

theorem counts_set {c' d : ServedConn} (hc : s.conns[i]? = some c) (hd : d ∈ s.conns.set i c')
    (hcounts : counts (s.conns.set i c') d = true) (hserving : c'.phase = .serving → c.phase = .serving)
    (huser : c'.user = c.user) (hsid : c'.sid = c.sid)
    (hmark : c.torrent = true → c.phase ≠ .released →
      (c'.torrent = true ∧ c'.phase ≠ .released) ∨ ¬(d.user = c.user ∧ d.sid = c.sid)) :
    ∃ e ∈ s.conns, e.user = d.user ∧ e.sid = d.sid ∧ counts s.conns e = true := by
  obtain ⟨hphase, hunmarked⟩ := counts_iff.mp hcounts
  have hcount : ∀ e : ServedConn, e.phase = .serving → e.user = d.user → e.sid = d.sid → counts s.conns e = true := by
    intro e hserve heuser hesid
    refine counts_iff.mpr ⟨hserve, fun f hf hfuser hfsid hftorrent => ?_⟩
    rcases mem_set_of_mem hc hf c' with rfl | hmem
    · by_contra hrel
      rcases hmark hftorrent hrel with ⟨htorrent', hrel'⟩ | hother
      · exact hrel' (hunmarked c' (mem_set_self hc c') (huser.trans (hfuser.trans heuser))
          (hsid.trans (hfsid.trans hesid))
          htorrent')
      · exact hother ⟨(hfuser.trans heuser).symm, (hfsid.trans hesid).symm⟩
    · exact hunmarked f hmem (hfuser.trans heuser) (hfsid.trans hesid) hftorrent
  rcases mem_or_eq_of_mem_set hd with hd | rfl
  · exact ⟨d, hd, rfl, rfl, hcount d hphase rfl rfl⟩
  · exact ⟨c, mem_of_getElem? hc, huser.symm, hsid.symm, hcount c (hserving hphase) huser.symm hsid.symm⟩

theorem Capped.start (defaults : KeyLimit) (keyLimits : Map KeyID KeyLimit) :
    (start defaults keyLimits).Capped fun user => (keyLimits.lookup user).getD defaults where
  limits _ := rfl
  calls _ _ := not_mem_nil
  stored _ hc := absurd hc not_mem_nil
  cap _ hpos := Int.le_of_lt hpos

theorem Capped.of_manager {m : KeyLimits} (h : s.Capped limit)
    (hlimits : ∀ user, m.limitsFor user = s.limiter.manager.limitsFor user)
    (hstored : ∀ d ∈ conns, counts conns d = true → ∃ sess, (inner m.sessions d.user).lookup d.sid = some sess ∧
      sess.isTorrent = false)
    (hcount : ∀ user, KeyLimits.normalCount (inner m.sessions user) ≤
      KeyLimits.normalCount (inner s.limiter.manager.sessions user))
    {limiter : KeyLimiter} (hm : limiter.manager = m) (hcalls : ∀ found n, .evict found n ∉ limiter.calls) :
    Capped limit { s with limiter := limiter, conns := conns } where
  limits user := by
    rw [hm, hlimits, h.limits]
  calls := hcalls
  stored d hd hcounts := by
    rw [ConnServer.stored]
    rw [hm]
    exact hstored d hd hcounts
  cap user hpos := by
    rw [hm]
    exact Int.le_trans (Int.ofNat_le.mpr (hcount user)) (h.cap user hpos)

theorem Capped.accept (h : s.Capped limit) (user : KeyID) (sessionID : Bytes) (remoteIP : List Char) (now : Int) :
    (s.accept user sessionID remoteIP now).Capped limit := by
  unfold ConnServer.accept
  dsimp only
  obtain ⟨hlimits, ⟨r, hr, hsame, -⟩ | ⟨hr, hbelow, -, sess, htorrent, hsessions⟩⟩ :=
    s.limiter.manager.tryAdmit_cases user (sessionID.flatMap hexByte) remoteIP now
  · rw [hr]
    exact {
      limits := fun u => (hlimits.limitsFor u).trans (h.limits u)
      calls := h.calls
      stored := fun c hc hcounts => by
        rw [ConnServer.stored, hsame.inner]
        exact h.stored c hc hcounts
      cap := fun u hpos => by
        rw [hsame.inner]
        exact h.cap u hpos }
  · rw [hr]
    exact {
      limits := fun u => (hlimits.limitsFor u).trans (h.limits u)
      calls := h.calls
      stored := fun c hc hcounts => by
        rw [ConnServer.stored]
        rw [hsessions]
        -- the session that was admitted is in the table, whichever connection of it is asked for
        by_cases hsame : c.user = user ∧ c.sid = sessionID.flatMap hexByte
        · rw [hsame.1, hsame.2, inner_insert_self, AList.lookup_insert]
          exact ⟨sess, rfl, htorrent⟩
        · rcases mem_append.mp hc with hc | hc
          · obtain ⟨old, hold, hnormal⟩ := h.stored c hc (counts_append hcounts)
            refine ⟨old, ?_, hnormal⟩
            rcases eq_or_ne c.user user with huser | huser
            · rw [huser, inner_insert_self, AList.lookup_insert_ne fun hsid => hsame ⟨huser, hsid⟩, ← huser]
              exact hold
            · rw [inner_insert_ne huser]
              exact hold
          · obtain rfl := mem_singleton.mp hc
            exact absurd ⟨rfl, rfl⟩ hsame
      cap := fun u hpos => by
        rw [hsessions]
        rcases eq_or_ne u user with rfl | hne
        · rw [inner_insert_self]
          have hle := count_insert_le (fun _ (s : KeySession) => !s.isTorrent) (inner s.limiter.manager.sessions u)
            (sessionID.flatMap hexByte) sess
          rw [h.limits] at hbelow
          have hlt := hbelow hpos
          simp only [KeyLimits.normalCount] at hlt ⊢
          omega
        · rw [inner_insert_ne hne]
          exact h.cap u hpos }

theorem Capped.torrent (h : s.Capped limit) (hc : s.conns[i]? = some c) (hserving : c.phase = .serving) :
    Capped limit { s with
      limiter.manager := s.limiter.manager.markTorrent c.user c.sid
      conns := s.conns.set i { c with torrent := true } } := by
  refine h.of_manager (KeyLimits.sameLimits_modifySession _ _ _ _).limitsFor (fun d hd hcounts => ?_)
    (KeyLimits.normalCount_markTorrent_le _ _ _) rfl h.calls
  have hmem := mem_set_self hc { c with torrent := true }
  have hne : d.user = c.user → d.sid ≠ c.sid := by
    intro huser hsid
    have hrel := (counts_iff.mp hcounts).2 _ hmem huser.symm hsid.symm rfl
    rw [hserving] at hrel
    cases hrel
  obtain ⟨e, he, huser, hsid, hecounts⟩ := counts_set hc hd hcounts id rfl rfl fun _ _ =>
    Or.inr fun hsame => hne hsame.1 hsame.2
  obtain ⟨sess, hsess, hnormal⟩ := h.stored e he hecounts
  rw [ConnServer.stored, huser, hsid] at hsess
  exact ⟨sess, (KeyLimits.lookup_modifySession_ne hne _).trans hsess, hnormal⟩

theorem Capped.finish (h : s.Capped limit) (hc : s.conns[i]? = some c) (hserving : c.phase = .serving) :
    Capped limit { s with conns := s.conns.set i { c with phase := .ended } } := by
  refine h.of_manager (fun _ => rfl) (fun d hd hcounts => ?_) (fun _ => le_rfl) rfl h.calls
  obtain ⟨e, he, huser, hsid, hecounts⟩ := counts_set hc hd hcounts (fun _ => hserving) rfl rfl fun htorrent _ =>
    Or.inl ⟨htorrent, nofun⟩
  rw [← huser, ← hsid]
  exact h.stored e he hecounts

theorem Capped.release (h : s.Capped limit) (hc : s.conns[i]? = some c) (hp : s.Kept (.release i)) :
    Capped limit { s with
      limiter := s.limiter.release c.user c.sid, conns := s.conns.set i { c with phase := .released } } := by
  refine h.of_manager (m := (s.limiter.manager.deleteSession c.user c.sid).2)
    (KeyLimits.sameLimits_deleteSession _ _ _).limitsFor (fun d hd hcounts => ?_)
    (KeyLimits.normalCount_deleteSession_le _ _ _) rfl ?_
  · have hserving := (counts_iff.mp hcounts).1
    have hne : d.user = c.user → d.sid ≠ c.sid := by
      rcases mem_or_eq_of_mem_set hd with hd | rfl
      · exact hp c hc d hd hserving
      · cases hserving
    obtain ⟨e, he, huser, hsid, hecounts⟩ := counts_set hc hd hcounts nofun rfl rfl fun _ _ =>
      Or.inr fun hsame => hne hsame.1 hsame.2
    obtain ⟨sess, hsess, hnormal⟩ := h.stored e he hecounts
    rw [ConnServer.stored, huser, hsid] at hsess
    rw [KeyLimits.lookup_deleteSession_ne hne]
    exact ⟨sess, hsess, hnormal⟩
  · intro found n hmem
    rcases mem_append.mp hmem with hmem | hmem
    · exact h.calls found n hmem
    · have hcall := mem_singleton.mp hmem
      rw [KeyLimiter.afterDelete] at hcall
      split at hcall
      · cases hcall
      · cases hcall

theorem Capped.gcExpired {now : Int} (h : s.Capped limit) (hp : s.Kept (.gcExpired now)) :
    Capped limit { s with limiter := s.limiter.gcExpired now } := by
  have hmanager : (s.limiter.gcExpired now).manager = (s.limiter.manager.expire now).2 := by
    unfold KeyLimiter.gcExpired
    dsimp only
    split
    · rfl
    · rfl
  refine h.of_manager (m := (s.limiter.manager.expire now).2) (fun _ => rfl) (fun d hd hcounts => ?_) (fun user => ?_)
    hmanager ?_
  · obtain ⟨sess, hsess, hnormal⟩ := h.stored d hd hcounts
    have hyoung := hp d hd hcounts sess hsess
    refine ⟨sess, ?_, hnormal⟩
    rw [KeyLimits.expire, inner_sweep, lookup_filter]
    rw [ConnServer.stored] at hsess
    rw [hsess, filter_some_pos]
    rw [KeyLimits.alive, decide_eq_true hyoung, Bool.or_true]
  · rw [KeyLimits.expire, inner_sweep]
    exact count_filter_le _ _ _
  · intro found n hmem
    unfold KeyLimiter.gcExpired at hmem
    dsimp only at hmem
    split at hmem
    · exact h.calls found n hmem
    · rcases mem_append.mp hmem with hmem | hmem
      · exact h.calls found n hmem
      · cases mem_singleton.mp hmem

theorem Capped.next {order : List ((KeyID × SessionID) × Int)} {limiter : KeyLimiter} (h : s.Capped limit)
    (hs : s.limiter.step (.next i order) = some limiter) : Capped limit { s with limiter := limiter } := by
  obtain ⟨call, hcall, hs⟩ := bind_eq_some_iff.mp hs
  cases call with
  | evict found n => exact absurd (mem_of_getElem? hcall) (h.calls found n)
  | subtract n gone call =>
    cases hs
    refine h.of_manager (m := { s.limiter.manager with totalSessions := s.limiter.manager.totalSessions - n })
      (fun _ => rfl) h.stored (fun _ => le_rfl) rfl ?_
    intro found k hmem
    rcases mem_or_eq_of_mem_set hmem with hmem | hmem
    · exact h.calls found k hmem
    · cases hmem
  | close gone call =>
    cases hs
    obtain ⟨hsessions, -, hdefault, hkey⟩ := s.limiter.manager.takeClosers_frame gone
    refine h.of_manager (m := (s.limiter.manager.takeClosers gone).2) (fun user => ?_) ?_ (fun user => ?_) rfl ?_
    · rw [KeyLimits.limitsFor, KeyLimits.limitsFor, hdefault, hkey]
    · rw [hsessions]
      exact h.stored
    · rw [hsessions]
    · exact fun found k hmem => h.calls found k (mem_of_mem_eraseIdx hmem)

theorem Capped.step {act : Act} (h : s.Capped limit) (hp : s.Kept act) (hs : s.step act = some t) : t.Capped limit := by
  cases act with
  | accept user sessionID remoteIP now => cases hs; exact h.accept user sessionID remoteIP now
  | torrent i =>
    obtain ⟨c, hc, rfl⟩ := map_eq_some_iff.mp hs
    obtain ⟨hc, hserving⟩ := connIn_eq_some hc
    exact h.torrent hc hserving
  | finish i =>
    obtain ⟨c, hc, rfl⟩ := map_eq_some_iff.mp hs
    obtain ⟨hc, hserving⟩ := connIn_eq_some hc
    exact h.finish hc hserving
  | release i =>
    obtain ⟨c, hc, rfl⟩ := map_eq_some_iff.mp hs
    exact h.release (connIn_eq_some hc).1 hp
  | gcExpired now => cases hs; exact h.gcExpired hp
  | next i order =>
    obtain ⟨limiter, hlimiter, rfl⟩ := map_eq_some_iff.mp hs
    exact h.next hlimiter

theorem Capped.length_activeSessions_le (h : s.Capped limit) {user : KeyID}
    (hpos : 0 < (limit user).maxActiveSessions) :
    ((s.activeSessions user).length : Int) ≤ (limit user).maxActiveSessions := by
  refine Int.le_trans (Int.ofNat_le.mpr ?_) (h.cap user hpos)
  refine length_le_count (nodup_dedup _) fun sid hsid => ?_
  obtain ⟨c, hactive, rfl⟩ := List.mem_map.mp (mem_dedup.mp hsid)
  obtain ⟨hc, hcounts⟩ := mem_filter.mp hactive
  rw [Bool.and_eq_true, beq_iff_eq] at hcounts
  obtain ⟨rfl, hcounts⟩ := hcounts
  obtain ⟨sess, hsess, hnormal⟩ := h.stored c hc hcounts
  exact ⟨sess, hsess, by rw [hnormal, Bool.not_false]⟩

end
end ConnServer

open ConnServer

/-- No key has more sessions than its cap that are open and not marked as torrents, as long as a connection is
    released only when no other connection of its session is served, and the garbage collection runs only
    while no such session is too old. -/
theorem active_sessions_within_cap (defaults : KeyLimit) (keyLimits : Map KeyID KeyLimit) (acts : List Act)
    (s : ConnServer)
    (hrun : Run ConnServer.step Kept (start defaults keyLimits) acts s) (user : KeyID)
    (hpos : 0 < ((keyLimits.lookup user).getD defaults).maxActiveSessions) :
    ((s.activeSessions user).length : Int) ≤ ((keyLimits.lookup user).getD defaults).maxActiveSessions :=
  (hrun.invariant Capped.step (Capped.start defaults keyLimits)).length_activeSessions_le hpos

def oneAtATime : List Act :=
  [.accept ['k'] [1] ['x'] 0, .accept ['k'] [2] ['x'] 1, .finish 0, .release 0, .next 0 [], .next 0 [], .gcExpired 2,
    .accept ['k'] [2] ['x'] 3]

theorem active_sessions_one_at_a_time :
    ∃ s, Run ConnServer.step Kept (start { maxActiveSessions := 1 } ∅) oneAtATime s ∧
    s.activeSessions ['k'] = [['0', '2']] ∧ s.denied.map (·.1) = [.activeCap] ∧
    ((s.activeSessions ['k']).length : Int) ≤ 1 :=
  Run.exists_of_exec (Q := fun s => s.activeSessions ['k'] = [['0', '2']] ∧ s.denied.map (·.1) = [.activeCap])
    (by decide +kernel) fun s hrun hs => ⟨hs.1, hs.2, active_sessions_within_cap _ _ _ s hrun ['k'] (by decide)⟩

/-- A second session is admitted when the garbage collection has dropped the first, which is still served;
    with a cap of two, a third one when one of the two connections of the first has been released. -/
theorem more_sessions_than_the_cap : (∃ s, AnyRun ConnServer.step (start { maxActiveSessions := 1 } ∅)
      [.accept ['k'] [1] ['x'] 0, .gcExpired (31 * KeyLimits.minute),
       .accept ['k'] [2] ['x'] (32 * KeyLimits.minute)] s ∧
      s.activeSessions ['k'] = [['0', '1'], ['0', '2']]) ∧
    ∃ s, AnyRun ConnServer.step (start { maxActiveSessions := 2 } ∅)
      [.accept ['k'] [1] ['x'] 0, .accept ['k'] [1] ['x'] 1, .finish 0, .release 0, .accept ['k'] [2] ['x'] 2,
        .accept ['k'] [3] ['x'] 3] s ∧
      s.activeSessions ['k'] = [['0', '1'], ['0', '2'], ['0', '3']] :=
  ⟨AnyRun.exists_of_exec (by decide +kernel), AnyRun.exists_of_exec (by decide +kernel)⟩

end Whispera
