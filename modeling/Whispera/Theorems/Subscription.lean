import Whispera.Lib.Text
import Whispera.Lib.Transition
import Whispera.Subscription

/-! The client takes the JSON object that the server writes for a line, which is no connection key. The server
forgets no token. -/

namespace Whispera
open List
open Strings Base64

variable (lib : KeyLib) (now : Int)

theorem not_isPrefixOf_cons {w s : Bytes} {c : UInt8} (hne : w ≠ []) (hhead : w.head? ≠ some c) :
    w.isPrefixOf (c :: s) = false := by
  cases w with
  | nil => exact absurd rfl hne
  | cons d w =>
    have hdc : d ≠ c := fun h => hhead (congrArg some h)
    simp [List.isPrefixOf, hdc]

theorem isForeignScheme_brace (s : Bytes) : isForeignScheme (123 :: s) = false := by
  have hall : ∀ p ∈ foreignSchemes, p ≠ [] ∧ p.head? ≠ some 123 := by decide
  refine any_eq_false.mpr fun p hp => ?_
  obtain ⟨hne, hhead⟩ := hall p hp
  rw [not_isPrefixOf_cons hne hhead]
  exact Bool.false_ne_true

theorem dropStart_brace {w : Bytes} (hne : w ≠ []) (hhead : w.head? ≠ some 123) (s : Bytes) :
    dropStart (123 :: s) w = 123 :: s := by
  rw [dropStart, not_isPrefixOf_cons hne hhead]
  rfl

theorem parseBase64ConnKey_brace (s : Bytes) : parseBase64ConnKey lib now (123 :: s) = .error .encoding := by
  have hbreak : (123 : UInt8) ≠ 10 ∧ (123 : UInt8) ≠ 13 := by decide
  have hstd : decodeStd (123 :: s) = none := decodePadded_cons hbreak (by decide) rfl s
  have hurl : decodeURL (123 :: s) = none := decodePadded_cons hbreak (by decide) rfl s
  have hraw : decode (123 :: s) = none := decode_cons hbreak rfl s
  rw [parseBase64ConnKey, hstd, hurl, hraw]
  rfl

theorem trimSpace_brace (s : Bytes) : ∃ s', trimSpace (123 :: s) = 123 :: s' ∧ s' <+: s :=
  trimSpace_cons (by decide) s

theorem parseConnectionKey_brace (s : Bytes) : parseConnectionKey lib now (123 :: s) = .error .encoding := by
  obtain ⟨s', htrim, -⟩ := trimSpace_brace s
  have hwhispera : (bytes "whispera://").isPrefixOf (123 :: s') = false := not_isPrefixOf_cons (by decide) (by decide)
  simp only [parseConnectionKey, htrim, isForeignScheme_brace, hwhispera, Bool.false_eq_true, false_and, if_false]
  rw [dropStart_brace (by decide) (by decide), dropStart_brace (by decide) (by decide), parseBase64ConnKey_brace]

theorem parseKeyLine_brace (s : Bytes) : parseKeyLine lib now (123 :: s) = none := by
  obtain ⟨s', htrim, -⟩ := trimSpace_brace s
  rw [parseKeyLine, htrim, parseConnectionKey_brace]
  exact ite_self none

theorem encodeStd_notSpace {bs : Bytes} : ∀ c ∈ encodeStd bs, c ∉ spaces.flatten := by
  have hall : ∀ n : Fin 64, stdDigit n ∉ spaces.flatten := by decide
  intro c hc
  rcases mem_encodeStd hc with ⟨n, hn, rfl⟩ | rfl
  · exact hall ⟨n, hn⟩
  · decide

theorem unmarshalStrings_encodeStd {c : UInt8} (hc : c < 128) (bs : Bytes) :
    lib.unmarshalStrings (encodeStd (c :: bs)) = none := by
  have hall : ∀ n : Fin 32, stdDigit n ∉ [9, 10, 13, 32, 91, 110] := by decide
  have hlt : c.toNat / 4 < 32 := Nat.div_lt_of_lt_mul (UInt8.lt_iff_toNat_lt.mp hc)
  obtain ⟨digits, hdigits⟩ := encodeStd_head c bs
  rw [hdigits]
  exact lib.unmarshalStrings_cons _ _ (hall ⟨_, hlt⟩)

theorem fetchSubscription_encodeStd {bs text : Bytes} {c : UInt8} (hbs : bs.take (3 * 1048576) = c :: text)
    (hc : c < 128) :
    fetchSubscription lib now { status := 200, body := encodeStd bs } =
      parseKeyList lib now ((trimSpace (c :: text)).splitOn 10) := by
  rw [fetchSubscription, subscriptionHTTPGet, if_neg (by simp), take_encodeStd, hbs]
  simp only [(spaceFree_of_bytes encodeStd_notSpace).trimSpace, unmarshalStrings_encodeStd lib hc, decodeStd_encodeStd,
    Option.orElse_eq_orElse, Option.orElse_some]

/-- What a client reads in base 64: lines with a key each, none of whose characters is white space. -/
theorem fetchSubscription_lines {uri : Bytes} {uris : List Bytes}
    (hkeys : ∀ u ∈ uri :: uris, u ≠ [] ∧ SpaceFree u) (hascii : ∀ c ∈ uri.head?, c < 128)
    (hlength : (Text.join 10 (uri :: uris)).length ≤ 3 * 1048576) :
    fetchSubscription lib now { status := 200, body := encodeStd (Text.join 10 (uri :: uris)) } =
      parseKeyList lib now (uri :: uris) := by
  have hne := fun u hu => (hkeys u hu).1
  obtain ⟨c, u, rfl⟩ := exists_cons_of_ne_nil (hne uri mem_cons_self)
  obtain ⟨t, ht⟩ : ∃ t, Text.join 10 ((c :: u) :: uris) = c :: t := by
    cases uris with
    | nil => exact ⟨u, Text.join_singleton _⟩
    | cons v us => exact ⟨_, Text.join_cons (by simp)⟩
  have hline : ∀ v ∈ (c :: u) :: uris, 10 ∉ v := fun v hv h =>
    (hkeys v hv).2 [10] (by decide) ((singleton_infix_iff 10 v).mpr h)
  have hsplit : (c :: t).splitOn 10 = (c :: u) :: uris := by
    rw [← ht]
    exact splitOn_intercalate 10 hline (by simp)
  have hbreak : ∀ w ∈ spaces, 10 ∈ w → w = [10] := by decide
  have htrim : trimSpace (c :: t) = c :: t := by
    rw [← ht]
    refine trimSpace_of_ends (fun w hw hstart => ?_) fun w hw hend => ?_
    · exact (hkeys _ mem_cons_self).2 w hw (Text.prefix_join (hbreak w hw) (by simp) hstart).isInfix
    · obtain ⟨v, hv, hvend⟩ := Text.suffix_join (hbreak w hw) (by simp) hne hend
      exact (hkeys v hv).2 w hw hvend.isInfix
  rw [fetchSubscription_encodeStd lib now ((take_of_length_le hlength).trans ht) (hascii c rfl), htrim, hsplit]

theorem fetchSubscription_object (fields : List (Bytes × Json.Value)) :
    fetchSubscription lib now { status := 200, body := encodeStd (Json.marshal (.object fields)) } =
      .error "subscription: no valid keys found" := by
  obtain ⟨rest, hrest, hline⟩ := Json.take_object fields (by decide : 0 < 3 * 1048576)
  obtain ⟨s, htrim, hstart⟩ := trimSpace_brace rest
  have hsplit : (123 :: s).splitOn 10 = [123 :: s] := by
    refine splitOn_eq_singleton fun h => ?_
    rcases mem_cons.mp h with h | h
    · exact absurd h (by decide)
    · exact hline (hstart.mem h)
  rw [fetchSubscription_encodeStd lib now hrest (by decide), htrim, hsplit, parseKeyList, filterMap_cons,
    parseKeyLine_brace]
  rfl

section
variable (subs : AList fun _ : Bytes => Subscription) (users : UserStore) (servers : List Bytes → Option Json.Value)
  (token : Bytes)

theorem fetchSubscription_served :
    ∃ err, fetchSubscription lib now (handleServeSubscription subs users servers token) = .error err := by
  have hstatus : ∀ status body, status ≠ 200 → ∃ err, fetchSubscription lib now { status, body } = .error err := by
    intro status body h
    rw [fetchSubscription, subscriptionHTTPGet, if_pos h]
    exact ⟨_, rfl⟩
  unfold handleServeSubscription
  split
  · exact hstatus _ _ (by decide)
  · split
    · exact hstatus _ _ (by decide)
    · split
      · exact hstatus _ _ (by decide)
      · exact ⟨_, fetchSubscription_object lib now _⟩

/-- The keys among some texts that are well formed and have not expired. -/
def validKeys (uris : List Bytes) : List ConnectionKey :=
  uris.filterMap fun uri =>
    match parseConnectionKey lib now uri with
    | .error _ => none
    | .ok ck => if ck.isExpired now then none else some ck

def resolvedKeys : List Bytes := ((subs.lookup token).map (subscriptionKeys users)).getD []

/-- If the subscription has keys that are well formed and have not expired, the client gets them and no
    others. -/
def SubscriptionRoundTrips : Prop :=
  validKeys lib now (resolvedKeys subs users token) ≠ [] →
    ∃ cks, fetchSubscription lib now (handleServeSubscription subs users servers token) = .ok cks ∧
      ∀ ck, ck ∈ cks ↔ ck ∈ validKeys lib now (resolvedKeys subs users token)

/-- A subscription comes through only if there is nothing to come through. -/
theorem subscriptionRoundTrips_iff :
    SubscriptionRoundTrips lib now subs users servers token ↔
    validKeys lib now (resolvedKeys subs users token) = [] := by
  obtain ⟨err, herr⟩ := fetchSubscription_served lib now subs users servers token
  constructor
  · intro h
    by_contra hne
    obtain ⟨cks, hcks, -⟩ := h hne
    rw [herr] at hcks
    cases hcks
  · exact fun h hne => absurd h hne

end

def aliceKeyJSON : Bytes := bytes "\x7b\"v\":1,\"server\":\"203.0.113.5:443\",\"psk\":\"AQID\"\x7d"
def aliceURI : Bytes := bytes "whispera://" ++ encodeStd aliceKeyJSON

def sampleKeyLib : KeyLib where
  unmarshalStrings _ := none
  valid text := text = aliceKeyJSON
  unmarshalKey text :=
    if text = aliceKeyJSON then some { version := 1, server := bytes "203.0.113.5:443", psk := bytes "AQID" } else none
  unmarshalMap _ := none
  parseURL _ := none
  scanInt _ := 0
  unmarshalStrings_cons _ _ _ := rfl

/-- Two lines, the second with the letter é. -/
theorem fetchSubscription_two_lines :
    fetchSubscription sampleKeyLib 0 { status := 200, body := encodeStd (Text.join 10 [[97], [98, 0xc3, 0xa9]]) } =
      parseKeyList sampleKeyLib 0 [[97], [98, 0xc3, 0xa9]] :=
  fetchSubscription_lines sampleKeyLib 0 (by decide +kernel) (by decide +kernel) (by decide)

def familySub : Subscription where
  name := bytes "family"
  userIDs := [1]
  keyIDs := []
  transports := []
  updatedAt := bytes "2026-01-02T03:04:05Z"

def sampleUsers : UserStore := AList.singleton 1 aliceURI
def sampleSubs : AList fun _ : Bytes => Subscription := AList.singleton (bytes "t0") familySub

/-- The one key of a subscription does not reach the client. -/
theorem family_key_is_lost :
    (validKeys sampleKeyLib 1767322800 (resolvedKeys sampleSubs sampleUsers (bytes "t0"))).length = 1 ∧
      fetchSubscription sampleKeyLib 1767322800
        (handleServeSubscription sampleSubs sampleUsers (fun _ => some .null) (bytes "t0")) =
          .error "subscription: no valid keys found" := by
  refine ⟨by decide +kernel, ?_⟩
  have hserved : ∃ fields, handleServeSubscription sampleSubs sampleUsers (fun _ => some .null) (bytes "t0") =
      { status := 200, body := encodeStd (Json.marshal (.object fields)) } := ⟨_, rfl⟩
  obtain ⟨fields, hfields⟩ := hserved
  rw [hfields]
  exact fetchSubscription_object sampleKeyLib 1767322800 fields

namespace SubStore
open Transition

variable {s t : SubStore} {sub other : StoredSubscription} {file : Option SubPersist}

/-- The index has just the stored subscriptions, each under its token. -/
def Agrees (s : SubStore) : Prop :=
  ∀ token sub, s.subByToken.lookup token = some sub ↔ s.subStore.lookup sub.id = some sub ∧ sub.token = token

/-- A stored subscription has the id of `sub` exactly if it has its token. -/
def Fits (s : SubStore) (sub : StoredSubscription) : Prop :=
  ∀ x, s.subStore.lookup x.id = some x → (x.id = sub.id ↔ x.token = sub.token)

def Distinct (a b : StoredSubscription) : Prop := a.id ≠ b.id ∧ a.token ≠ b.token

def FileFits (s : SubStore) (file : Option SubPersist) : Prop :=
  ∀ p ∈ file, p.subscriptions.Pairwise Distinct ∧ ∀ sub ∈ p.subscriptions, s.Fits sub

/-- What the call stores fits the store. -/
def CallFits (s : SubStore) : Call → Prop
  | .load file => s.FileFits file
  | .create file r =>
    s.FileFits file ∧ ∀ sub, r.subscription (s.loadSubscriptions file) = .ok sub → (s.loadSubscriptions file).Fits sub

theorem Agrees.put (h : s.Agrees) (hfits : s.Fits sub) : (s.put sub).Agrees := by
  intro token x
  simp only [SubStore.put]
  by_cases htoken : token = sub.token
  · rw [htoken, AList.lookup_insert]
    by_cases hid : x.id = sub.id
    · rw [hid, AList.lookup_insert]
      exact ⟨fun hx => ⟨hx, by cases hx; rfl⟩, And.left⟩
    · rw [AList.lookup_insert_ne hid]
      refine iff_of_false (fun hx => hid (by cases hx; rfl)) ?_
      rintro ⟨hx, ht⟩
      exact hid ((hfits x hx).mpr ht)
  · rw [AList.lookup_insert_ne htoken, h]
    by_cases hid : x.id = sub.id
    · refine iff_of_false ?_ ?_
      · rintro ⟨hx, rfl⟩
        exact htoken ((hfits x hx).mp hid)
      · rw [hid, AList.lookup_insert]
        rintro ⟨⟨⟩, rfl⟩
        exact htoken rfl
    · rw [AList.lookup_insert_ne hid]

theorem Fits.put (h : s.Fits other) (hne : Distinct sub other) : (s.put sub).Fits other := by
  intro x hx
  by_cases hid : x.id = sub.id
  · rw [SubStore.put, hid, AList.lookup_insert] at hx
    cases hx
    exact iff_of_false hne.1 hne.2
  · rw [SubStore.put, AList.lookup_insert_ne hid] at hx
    exact h x hx

theorem Agrees.loadSubscriptions (h : s.Agrees) (hfile : s.FileFits file) : (s.loadSubscriptions file).Agrees := by
  cases file with
  | none => exact h
  | some p =>
    obtain ⟨hdistinct, hfits⟩ := hfile p rfl
    clear hfile
    show (p.subscriptions.foldl SubStore.put s).Agrees
    generalize p.subscriptions = subs at hdistinct hfits
    induction subs generalizing s with
    | nil => exact h
    | cons sub subs ih =>
      obtain ⟨hsub, hdistinct⟩ := pairwise_cons.mp hdistinct
      obtain ⟨hfit, hfits⟩ := forall_mem_cons.mp hfits
      exact ih (h.put hfit) hdistinct fun other hother => (hfits other hother).put (hsub other hother)

theorem Agrees.step {c : Call} (h : s.Agrees) (hc : s.CallFits c) : (s.step c).Agrees := by
  cases c with
  | load file => exact h.loadSubscriptions hc
  | create file r =>
    have hload := h.loadSubscriptions hc.1
    simp only [SubStore.step, createSubscription]
    split
    · exact hload
    · rename_i sub hsub
      exact hload.put (hc.2 sub hsub)

/-- The index agrees with the store as long as no subscription comes with the id of a stored one or with its
    token, but not with both. -/
theorem index_agrees {calls : List Call} (h : Run (fun s c => some (s.step c)) CallFits {} calls s) : s.Agrees :=
  h.invariant (fun ht hc hs => by cases hs; exact ht.step hc) fun _ _ => iff_of_false nofun fun hx => nomatch hx.1

def sampleSubscription (id token : Bytes) : StoredSubscription where
  id := id
  token := token
  name := []
  userIDs := []
  keyIDs := []
  transports := []
  updatedAt := []

theorem fits_iff : s.Fits sub ↔
    ∀ e ∈ s.subStore.entries, e.2.id = e.1 → (e.1 = sub.id ↔ e.2.token = sub.token) := by
  constructor
  · rintro h ⟨id, x⟩ he (rfl : x.id = id)
    exact h x (AList.mem_lookup_iff.mpr he)
  · intro h x hx
    exact h ⟨x.id, x⟩ (AList.mem_lookup_iff.mp hx) rfl

instance : Decidable (s.Fits sub) := decidable_of_iff _ fits_iff.symm

instance (a b : StoredSubscription) : Decidable (Distinct a b) := inferInstanceAs (Decidable (_ ∧ _))

instance : Decidable (s.FileFits file) := Option.decidableForallMem _

instance (s : SubStore) : DecidablePred s.CallFits
  | .load file => inferInstanceAs (Decidable (s.FileFits file))
  | .create file r => decidable_of_iff
      (s.FileFits file ∧ ∀ sub ∈ (r.subscription (s.loadSubscriptions file)).toOption,
       (s.loadSubscriptions file).Fits sub) <| by
    cases hr : r.subscription (s.loadSubscriptions file) <;> simp [CallFits, hr, Except.toOption]

/-- The second file has the first subscription under another name and a new one, and then one is created. -/
def loadedTwice : List Call :=
  [.load (some ⟨[sampleSubscription [1] [2], sampleSubscription [3] [4]], 3⟩),
    .load (some ⟨[{ sampleSubscription [1] [2] with name := [97] }, sampleSubscription [5] [6]], 5⟩),
    .create none { name := [98], usernames := [], users := [], token := .ok [7], now := [] }]

theorem index_agrees_loaded : ∃ s, Run (fun s c => some (s.step c)) CallFits ({} : SubStore) loadedTwice s ∧
    s.subStore.entries.length = 4 ∧ s.Agrees :=
  Run.exists_of_exec (Q := fun s => s.subStore.entries.length = 4) (by decide +kernel) fun _ hrun hs =>
  ⟨hs, index_agrees hrun⟩

def restored : SubStore := (({} : SubStore).step (.load (some ⟨[sampleSubscription [1] [2]], 0⟩))).step
  (.load (some ⟨[sampleSubscription [1] [3]], 0⟩))

/-- The backup has another token for the subscription, and the old one is still served. -/
theorem old_token_is_served : restored.subByToken.lookup [2] = some (sampleSubscription [1] [2]) ∧
    restored.subStore.lookup [1] = some (sampleSubscription [1] [3]) := by
  decide

end SubStore

end Whispera
