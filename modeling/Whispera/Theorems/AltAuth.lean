import Whispera.AltAuth
import Whispera.Lib.Processes
import Whispera.Theorems.Replay

/-! Logins on the alternative transports. The server keeps no record of the tokens that it has found good, so
one is good again as long as the windows around the clock reach the one that it was made in. -/

namespace Whispera
open List hiding get
open Transition Processes Reader BigEndian

theorem readNew_append {s : Stream} {xs ys : Bytes} {e : Err} {n : Nat} (h : s.Holds (xs ++ ys) e)
    (hn : xs.length = n) :
    ∃ s', readNew Stream.read n s = some (xs, s') ∧ s'.Holds ys e := by
  subst hn
  obtain ⟨s', hread, hs'⟩ := Stream.readFull_append h
  exact ⟨s', by rw [readNew, hread], hs'⟩

theorem readAltLogin_header {l : AltLogin} (hsession : 0 < l.sessionID.length ∧ l.sessionID.length ≤ 64)
    (htoken : 0 < l.token.length ∧ l.token.length ≤ 256) {s : Stream} {rest : Bytes} {e : Err}
    (h : s.Holds (l.header ++ rest) e) : ∃ s', readAltLogin Stream.read s = some (l, s') ∧ s'.Holds rest e := by
  have hsid : get [UInt8.ofNat l.sessionID.length] = l.sessionID.length := by
    rw [get_cons, UInt8.toNat_ofNat', Nat.mod_eq_of_lt (by omega)]
    exact mul_one _
  have htok : get (putUint16 l.token.length) = l.token.length := get_putUint16 (by omega)
  have hbytes : l.header ++ rest =
      [UInt8.ofNat l.sessionID.length] ++ (l.sessionID ++ (putUint16 l.token.length ++ (l.token ++ rest))) := by
    simp [AltLogin.header]
  rw [hbytes] at h
  obtain ⟨s1, h1, hs1⟩ := readNew_append h rfl
  obtain ⟨s2, h2, hs2⟩ := readNew_append hs1 hsid.symm
  obtain ⟨s3, h3, hs3⟩ := readNew_append hs2 (length_putUint16 _)
  obtain ⟨s4, h4, hs4⟩ := readNew_append hs3 htok.symm
  refine ⟨s4, ?_, hs4⟩
  simp only [readAltLogin, length_singleton] at h1 ⊢
  simp only [h1, Option.bind_eq_bind, Option.bind_some, h2, h3, h4]
  rw [if_neg (by omega), if_neg (by omega)]

section
variable {crypto : Crypto}

theorem passes_iff {l : AltLogin} {check : Bytes × Int64} : l.passes crypto check = true ↔
    ∃ psk, Base64.decodeStd check.1 = some psk ∧ psk.length = 32 ∧
      verifyAuthToken crypto psk l.token l.sessionID check.2.toInt = true := by
  rw [AltLogin.passes]
  cases Base64.decodeStd check.1 with
  | none | some psk => simp

theorem verifyAuthToken_authToken {key sessionID : Bytes} {w now : Int}
    (hw : w ∈ windows authWindowSeconds authWindowTolerance now) :
    verifyAuthToken crypto key (authToken crypto key w sessionID) sessionID now = true := by
  refine verifyAuthToken_of_raw (Base64.decode_encode _) ?_
  rw [verifyAuthTokenRaw, if_neg (not_not_intro (crypto.length_hmac _ _))]
  exact any_eq_true.mpr ⟨w, hw, decide_eq_true rfl⟩

theorem length_authToken (key : Bytes) (w : Int) (sessionID : Bytes) :
    (authToken crypto key w sessionID).length = 43 := by
  rw [authToken, Base64.length_encode, crypto.length_hmac]

variable {users : List (Bytes × Int64)}

/-- A client of a user is let in, if the window of its clock is next to that of the server's when the user
    comes up. -/
theorem sent_login_is_accepted {psk sent rest : Bytes} {sessionID : Block altTransportSessionIDLen} {tc : Int}
    {now : Int64} {s : Stream} {e : Err}
    (hsent : sendAltTransportAuth crypto psk sessionID tc = some sent) (h : s.Holds (sent ++ rest) e)
    (hu : (Base64.encodeStd psk, now) ∈ users)
    (hw : tc.tdiv authWindowSeconds ∈ windows authWindowSeconds authWindowTolerance now.toInt) :
    ∃ a, verifyAltTransportAuth crypto Stream.read users s = some a ∧ a.login.sessionID = sessionID.val := by
  rw [sendAltTransportAuth] at hsent
  split at hsent <;> cases hsent
  rename_i hpsk
  have hlen : sessionID.val.length = 8 := sessionID.length_val
  obtain ⟨s', hread, -⟩ := readAltLogin_header (by simp only [hlen]; decide) (by simp only [length_authToken]; decide) h
  have hpass : AltLogin.passes crypto ⟨sessionID.val, authToken crypto psk (tc.tdiv authWindowSeconds) sessionID.val⟩
      (Base64.encodeStd psk, now) = true :=
    passes_iff.mpr ⟨psk, Base64.decodeStd_encodeStd psk, not_not.mp hpsk, verifyAuthToken_authToken hw⟩
  obtain ⟨check, hcheck⟩ := Option.isSome_iff_exists.mp (find?_isSome.mpr ⟨_, hu, hpass⟩)
  refine ⟨⟨⟨sessionID.val, authToken crypto psk (tc.tdiv authWindowSeconds) sessionID.val⟩, check.2⟩, ?_, rfl⟩
  rw [verifyAltTransportAuth, hread]
  simp only [hcheck, Option.map_some]

theorem sent_login_of_alice :
    ∃ a, verifyAltTransportAuth sampleCrypto Stream.read [(Base64.encodeStd aliceAuthKey, 1700000010)]
      ⟨(sendAltTransportAuth sampleCrypto aliceAuthKey (.copy 8 [7]) 1700000040).getD [], fun _ => 0, .eof,
       false⟩ = some a ∧
    a.login.sessionID = (Block.copy 8 [7]).val :=
  sent_login_is_accepted rfl ⟨(append_nil _).symm, rfl⟩ (mem_singleton_self _) (by decide)

/-- The token is for the window `w`, next to that of the time. -/
structure AltAcceptance.MadeIn (crypto : Crypto) (a : AltAcceptance) (w : Int) : Prop where
  near : a.time.toInt.tdiv authWindowSeconds - 1 ≤ w ∧ w ≤ a.time.toInt.tdiv authWindowSeconds + 1
  mac : ∃ key, Base64.decode a.login.token = some (crypto.hmac key (windowBytes w ++ a.login.sessionID))

theorem verifyAltTransportAuth_spec {s : Stream} {a : AltAcceptance}
    (h : verifyAltTransportAuth crypto Stream.read users s = some a) :
    (∃ s', readAltLogin Stream.read s = some (a.login, s')) ∧ (∃ check ∈ users, check.2 = a.time) ∧
    ∃ w, a.MadeIn crypto w := by
  rw [verifyAltTransportAuth] at h
  split at h
  · cases h
  · rename_i login s' hread
    obtain ⟨check, hfind, rfl⟩ := Option.map_eq_some_iff.mp h
    refine ⟨⟨s', hread⟩, ⟨check, mem_of_find?_eq_some hfind, rfl⟩, ?_⟩
    obtain ⟨psk, -, -, hverify⟩ := passes_iff.mp (find?_some hfind)
    rw [verifyAuthToken] at hverify
    split at hverify
    · cases hverify
    · rename_i raw hraw
      rw [verifyAuthTokenRaw] at hverify
      split at hverify
      · cases hverify
      · obtain ⟨w, hw, hmac⟩ := any_eq_true.mp hverify
        exact ⟨w, mem_windows.mp hw, psk, hraw.trans (congrArg some (of_decide_eq_true hmac).symm)⟩

theorem tdiv_window_range (t : Int64) :
    -2 ^ 62 ≤ t.toInt.tdiv authWindowSeconds ∧ t.toInt.tdiv authWindowSeconds < 2 ^ 62 := by
  have hlo := Int64.le_toInt t
  have hhi := Int64.toInt_lt t
  have habs : (t.toInt.tdiv authWindowSeconds).natAbs = t.toInt.natAbs / 30 := Int.natAbs_tdiv ..
  omega

theorem AltAcceptance.MadeIn.unique (hmac : SeparatesWindows crypto) {p q : AltAcceptance} {v w : Int}
    (hp : p.MadeIn crypto v)
    (hq : q.MadeIn crypto w) (hsession : p.login.sessionID = q.login.sessionID)
    (hraw : Base64.decode p.login.token = Base64.decode q.login.token) : v = w := by
  obtain ⟨key, hkey⟩ := hp.mac
  obtain ⟨key', hkey'⟩ := hq.mac
  rw [hraw, hkey', hsession] at hkey
  have hbytes : windowBytes w = windowBytes v := hmac key' key w v q.login.sessionID (Option.some.inj hkey)
  have hv := hp.near
  have hw := hq.near
  have hp' := tdiv_window_range p.time
  have hq' := tdiv_window_range q.time
  exact (windowBytes_inj ⟨by omega, by omega⟩ ⟨by omega, by omega⟩ hbytes).symm

end

namespace AltServer

/-- The windows of two readings of the clock are so far apart that no window is next to both. -/
def FarApart (t now : Int64) : Prop :=
  t.toInt.tdiv authWindowSeconds + 2 * authWindowTolerance < now.toInt.tdiv authWindowSeconds ∨
  now.toInt.tdiv authWindowSeconds + 2 * authWindowTolerance < t.toInt.tdiv authWindowSeconds

/-- A token is presented again for its session only when the clock has left the windows around it. -/
def Spaced (s : AltServer) : Act → Prop
  | .verify _ conn users => ∀ l ∈ (readAltLogin Stream.read conn).map Prod.fst, ∀ p ∈ s.accepted,
      p.login.sessionID = l.sessionID → Base64.decode p.login.token = Base64.decode l.token →
      ∀ check ∈ users, FarApart p.time check.2
  | .accept _ | .finish _ => True

variable {crypto : Crypto} {relay : Bool} {s s' : AltServer}

/-- What a step of the server does. -/
inductive Step (crypto : Crypto) (relay : Bool) (s : AltServer) : Act → AltServer → Prop
  | refuse {host : String} : maxTCPConnsPerIP ≤ s.perIP host → Step crypto relay s (.accept host) s
  | accept {host : String} : s.perIP host < maxTCPConnsPerIP → Step crypto relay s (.accept host)
      { s with
        perIP := fun h => if h = host then s.perIP h + 1 else s.perIP h, conns := s.conns ++ [⟨host, .verifying⟩] }
  | reject {i : Nat} {host : String} {conn : Stream} {users : List (Bytes × Int64)} :
      s.conns[i]? = some ⟨host, .verifying⟩ → verifyAltTransportAuth crypto Stream.read users conn = none →
      Step crypto relay s (.verify i conn users) ((s.release host).setConn i ⟨host, .closed⟩)
  | serve {i : Nat} {host : String} {conn : Stream} {users : List (Bytes × Int64)} {a : AltAcceptance} :
      s.conns[i]? = some ⟨host, .verifying⟩ → verifyAltTransportAuth crypto Stream.read users conn = some a →
      Step crypto relay s (.verify i conn users) ({ s with accepted := s.accepted ++ [a] }.setConn i ⟨host, .serving⟩)
  | drop {i : Nat} {host : String} {conn : Stream} {users : List (Bytes × Int64)} {a : AltAcceptance} :
      s.conns[i]? = some ⟨host, .verifying⟩ → verifyAltTransportAuth crypto Stream.read users conn = some a →
      Step crypto relay s (.verify i conn users)
        (({ s with accepted := s.accepted ++ [a] }.release host).setConn i ⟨host, .closed⟩)
  | finish {i : Nat} {host : String} : s.conns[i]? = some ⟨host, .serving⟩ →
      Step crypto relay s (.finish i) ((s.release host).setConn i ⟨host, .closed⟩)

variable {act : Act}

theorem step_inv (h : s.step crypto relay act = some s') : Step crypto relay s act s' := by
  cases act with
  | accept host =>
    simp only [step, acquire] at h
    split at h <;> cases h
    · rename_i hnone
      split at hnone
      · exact .refuse ‹_›
      · cases hnone
    · rename_i s1 hsome
      split at hsome <;> cases hsome
      exact .accept (by omega)
  | verify i conn users =>
    simp only [step] at h
    split at h
    · rename_i host hi
      cases hv : verifyAltTransportAuth crypto Stream.read users conn with
      | none =>
        rw [hv] at h
        cases h
        exact .reject hi hv
      | some a =>
        rw [hv] at h
        cases h
        cases relay with
        | true => exact .serve hi hv
        | false => exact .drop hi hv
    · cases h
  | finish i =>
    simp only [step] at h
    split at h <;> cases h
    rename_i host hi
    exact .finish hi

def Holds (host : String) (c : AltConn) : Bool := c.host = host && c.pc ≠ .closed

/-- The limiter counts the connections of each host that are not closed, and there are not too many of them.
    -/
def Counted (s : AltServer) : Prop :=
  ∀ host, s.perIP host = s.conns.countP (Holds host) ∧ s.perIP host ≤ maxTCPConnsPerIP

theorem holds_open {pc : AltPc} (hpc : pc ≠ .closed) (host k : String) : Holds k ⟨host, pc⟩ = decide (k = host) := by
  simp only [Holds, hpc, ne_eq, not_false_eq_true, decide_true, Bool.and_true, eq_comm]

theorem holds_closed (host k : String) : Holds k ⟨host, .closed⟩ = false := Bool.and_false _

theorem Counted.close {i : Nat} {host : String} {pc : AltPc} (h : s.Counted) (hi : s.conns[i]? = some ⟨host, pc⟩)
    (hpc : pc ≠ .closed) : ((s.release host).setConn i ⟨host, .closed⟩).Counted := by
  intro k
  have hset := countP_set (Holds k) hi ⟨host, .closed⟩
  rw [holds_open hpc, holds_closed, Bool.toNat_false, add_zero] at hset
  obtain ⟨hcount, hle⟩ := h k
  simp only [release, setConn]
  by_cases hk : k = host
  · rw [if_pos hk]
    rw [decide_eq_true hk, Bool.toNat_true] at hset
    omega
  · rw [if_neg hk]
    rw [decide_eq_false hk, Bool.toNat_false] at hset
    omega

theorem counted_step (h : s.Counted) (hs : s.step crypto relay act = some s') : s'.Counted := by
  cases step_inv hs with
  | refuse _ => exact h
  | @accept host hlt =>
    intro k
    obtain ⟨hcount, hle⟩ := h k
    have hverifying : AltPc.verifying ≠ .closed := by decide
    simp only [countP_append, countP_singleton, holds_open hverifying, decide_eq_true_eq]
    split
    · rename_i hk
      rw [hk] at hcount ⊢
      omega
    · exact ⟨hcount, hle⟩
  | reject hi _ | finish hi => exact h.close hi (by decide)
  | @serve i host conn users a hi _ =>
    intro k
    have hset := countP_set (Holds k) hi ⟨host, .serving⟩
    exact ⟨(h k).1.trans (add_right_cancel hset).symm, (h k).2⟩
  | drop hi _ => exact Counted.close h hi (by decide)

theorem slots_are_counted {acts : List Act} (hrun : AnyRun (step crypto relay) {} acts s) : s.Counted :=
  hrun.invariant (fun h _ hs => counted_step h hs) fun _ => ⟨rfl, Nat.zero_le _⟩

theorem slots_are_counted_refused : ∃ s, AnyRun (step sampleCrypto true) {}
    [.accept "a", .accept "a", .verify 0 ⟨[], fun _ => 0, .eof, false⟩ []] s ∧ s.perIP "a" = 1 ∧ s.Counted :=
  Run.exists_of_exec (Q := fun s => s.perIP "a" = 1) (by decide +kernel) fun _ hrun hs => ⟨hs, slots_are_counted hrun⟩

theorem step_accepted (h : s.step crypto relay act = some s') :
    s'.accepted = s.accepted ∨ ∃ i conn users a, act = .verify i conn users ∧
      verifyAltTransportAuth crypto Stream.read users conn = some a ∧ s'.accepted = s.accepted ++ [a] := by
  cases step_inv h with
  | serve _ hv | drop _ hv => exact Or.inr ⟨_, _, _, _, rfl, hv, rfl⟩
  | _ => exact Or.inl rfl

/-- Every token was made in a window next to the clock, and no token was found good twice for a session. -/
structure Once (crypto : Crypto) (s : AltServer) : Prop where
  made : ∀ p ∈ s.accepted, ∃ w, p.MadeIn crypto w
  differ : s.accepted.Pairwise fun p q => p.login.sessionID = q.login.sessionID →
    Base64.decode p.login.token ≠ Base64.decode q.login.token

theorem once_step (hmac : SeparatesWindows crypto) (h : s.Once crypto) (ha : s.Spaced act)
    (hs : s.step crypto relay act = some s') : s'.Once crypto := by
  obtain heq | ⟨i, conn, users, a, rfl, hverify, heq⟩ := step_accepted hs
  · exact ⟨heq ▸ h.made, heq ▸ h.differ⟩
  · obtain ⟨⟨rest, hread⟩, ⟨check, hcheck, htime⟩, w, hw⟩ := verifyAltTransportAuth_spec hverify
    refine ⟨fun p hp => ?_, ?_⟩
    · rw [heq] at hp
      rcases mem_append.mp hp with hp | hp
      · exact h.made p hp
      · obtain rfl := mem_singleton.mp hp
        exact ⟨w, hw⟩
    · rw [heq, pairwise_append]
      refine ⟨h.differ, pairwise_singleton _ _, fun p hp q hq hsession hraw => ?_⟩
      obtain rfl := mem_singleton.mp hq
      obtain ⟨v, hv⟩ := h.made p hp
      obtain rfl := hv.unique hmac hw hsession hraw
      have hfar := ha q.login (by rw [hread]; rfl) p hp hsession hraw check hcheck
      rw [htime, FarApart, authWindowTolerance] at hfar
      have hp' := hv.near
      have hq' := hw.near
      omega

theorem alt_token_is_accepted_once (hmac : SeparatesWindows crypto) {acts : List Act}
    (hrun : Run (step crypto relay) Spaced {} acts s) :
    s.accepted.Pairwise fun p q => p.login.sessionID = q.login.sessionID →
      Base64.decode p.login.token ≠ Base64.decode q.login.token :=
  (hrun.invariant (fun h ha hs => once_step hmac h ha hs) ⟨by simp, List.Pairwise.nil⟩).differ

instance (t now : Int64) : Decidable (FarApart t now) := inferInstanceAs (Decidable (_ ∨ _))

instance (s : AltServer) (act) : Decidable (s.Spaced act) := by
  unfold Spaced
  split <;> infer_instance

def loginConn (l : AltLogin) : Stream := { bytes := l.header, sizes := fun _ => 99, fin := .eof, together := false }

/-- A connection with the login of a user whose key is `aliceAuthKey`, and the clock while it is verified. -/
def presented (i : Nat) (token : Bytes) (now : Int64) : List Act :=
  [.accept "192.0.2.1", .verify i (loginConn ⟨aliceSession, token⟩) [(Base64.encodeStd aliceAuthKey, now)]]

def spacedRun : List Act :=
  presented 0 aliceToken 1700000010 ++ presented 1 aliceNextToken 1700000040 ++ presented 2 aliceToken 1700000130

theorem alt_token_again_after_windows : ∃ s, Run (step sampleCrypto true) Spaced {} spacedRun s ∧
    s.accepted = [⟨⟨aliceSession, aliceToken⟩, 1700000010⟩, ⟨⟨aliceSession, aliceNextToken⟩, 1700000040⟩] ∧
    s.accepted.Pairwise fun p q => p.login.sessionID = q.login.sessionID →
      Base64.decode p.login.token ≠ Base64.decode q.login.token := by
  refine Run.exists_of_exec ?_ fun s hrun hs => ⟨hs, alt_token_is_accepted_once separatesWindows_sample hrun⟩
  decide +kernel

/-- The same login is presented on a second connection half a minute later. -/
theorem alt_token_is_accepted_again : SeparatesWindows sampleCrypto ∧ ∃ s,
    AnyRun (step sampleCrypto true) {} (presented 0 aliceToken 1700000010 ++ presented 1 aliceToken 1700000040) s ∧
    s.accepted = [⟨⟨aliceSession, aliceToken⟩, 1700000010⟩, ⟨⟨aliceSession, aliceToken⟩, 1700000040⟩] :=
  ⟨separatesWindows_sample, AnyRun.exists_of_exec (by decide +kernel)⟩

end AltServer

end Whispera
