import Whispera.SelectorIndex

/-! The server undoes the mask of the selector, finds the user by the tag, and compares the marker with those
of the windows around its own. -/

namespace Whispera
open List BigEndian

section
variable {crypto : Crypto}

theorem lookup_addUser (built : TagMap) (u : UserEntry) (tag : Block 8) : (addUser crypto built u).lookup tag =
    if u.psk.length = 32 ∧ tag = userTag crypto u.psk then some (selectorEntry crypto u.userID u.psk)
    else built.lookup tag := by
  unfold addUser
  by_cases hlen : u.psk.length = 32
  · rw [if_neg (not_not.mpr hlen)]
    by_cases htag : tag = userTag crypto u.psk
    · rw [if_pos ⟨hlen, htag⟩, htag, AList.lookup_insert]
    · rw [if_neg fun h => htag h.2, AList.lookup_insert_ne htag]
  · rw [if_pos hlen, if_neg fun h => hlen h.1]

theorem lookup_addUsers_ne {tag : Block 8} : ∀ {users : List UserEntry} (built : TagMap),
    (∀ u ∈ users, userTag crypto u.psk ≠ tag) → (users.foldl (addUser crypto) built).lookup tag = built.lookup tag := by
  intro users
  induction users with
  | nil => exact fun _ _ => rfl
  | cons u users ih =>
    intro built h
    rw [foldl_cons, ih _ fun v hv => h v (mem_cons_of_mem u hv), lookup_addUser,
      if_neg fun heq => h u mem_cons_self heq.2.symm]

theorem lookup_buildIndex {sharedSecret : Bytes} {users : List UserEntry} {u : UserEntry} (hu : u ∈ users)
    (hlen : u.psk.length = 32) (htags : users.Pairwise fun x y => userTag crypto x.psk ≠ userTag crypto y.psk) :
    (buildIndex crypto sharedSecret users).lookup (userTag crypto u.psk) =
      some (selectorEntry crypto u.userID u.psk) := by
  unfold buildIndex
  obtain ⟨before, after, rfl⟩ := append_of_mem hu
  have hafter : ∀ v ∈ after, userTag crypto v.psk ≠ userTag crypto u.psk := fun v hv =>
    ((pairwise_cons.mp (pairwise_append.mp htags).2.1).1 v hv).symm
  rw [foldl_append, foldl_cons, lookup_addUsers_ne _ hafter, lookup_addUser, if_pos ⟨hlen, rfl⟩]

theorem open_build (psk : Bytes) {ephPriv serverPub serverPriv keyShare shared : Bytes} (hshare : keyShare.length = 32)
    (heph : crypto.ecdh ephPriv serverPub = some shared) (hserver : crypto.ecdh serverPriv keyShare = some shared) :
    ∃ sel, buildSelector crypto psk ephPriv serverPub = some sel ∧
      openSelector crypto sel serverPriv keyShare = some (userTag crypto psk) := by
  refine ⟨xorTag (userTag crypto psk) (selectorMask crypto shared), ?_, ?_⟩
  · rw [buildSelector, heph]
    rfl
  · rw [openSelector, if_neg (not_not.mpr hshare), hserver]
    exact congrArg some (Block.xor_xor _ _)

theorem splitRandom_append (sel : Block 8) (marker : Block 24) :
    splitRandom (sel.val ++ marker.val) = some (sel, marker.val) := by
  have hlen : (sel.val ++ marker.val).length = 32 := by rw [length_append, sel.length_val, marker.length_val]
  have htake : (sel.val ++ marker.val).take 8 = sel.val := take_left' sel.length_val
  have hdrop : (sel.val ++ marker.val).drop 8 = marker.val := drop_left' sel.length_val
  rw [splitRandom, if_neg (not_not.mpr hlen), htake, hdrop, Block.copy_self]

theorem windowBytes_inj {v w : Int} (hv : -2 ^ 63 ≤ v ∧ v < 2 ^ 63) (hw : -2 ^ 63 ≤ w ∧ w < 2 ^ 63)
    (h : windowBytes v = windowBytes w) : v = w := by
  have hmod : ∀ x : Int, (x % 2 ^ 64).toNat < 256 ^ 8 := fun x => by omega
  have := put_inj (hmod v) (hmod w) h
  omega

theorem mem_windows {seconds now w : Int} {tol : Nat} :
    w ∈ windows seconds tol now ↔ now.tdiv seconds - tol ≤ w ∧ w ≤ now.tdiv seconds + tol := by
  simp only [windows, mem_map, mem_range]
  constructor
  · rintro ⟨i, hi, rfl⟩
    omega
  · intro h
    exact ⟨(w - (now.tdiv seconds - tol)).toNat, by omega, by omega⟩

theorem mem_windowsAround {t : Nat} {w : Int} :
    w ∈ windowsAround t ↔ ((t / 30 : Nat) : Int) - 1 ≤ w ∧ w ≤ ((t / 30 : Nat) : Int) + 1 :=
  mem_windows

theorem markerMatchesKey_iff {key keyShare : Bytes} {tc ts : Nat} (hkey : key ≠ []) (hshare : keyShare ≠ [])
    (htc : tc < 2 ^ 63) (hts : ts < 2 ^ 63)
    (hmac : ∀ w ∈ windowsAround ts, windowBytes w ≠ windowBytes (tc / 30 : Nat) →
      markerFor crypto key w keyShare ≠ markerFor crypto key (tc / 30 : Nat) keyShare) :
    markerMatchesKey crypto key (markerFor crypto key (tc / 30 : Nat) keyShare).val keyShare ts = true ↔
      ts / 30 ≤ tc / 30 + 1 ∧ tc / 30 ≤ ts / 30 + 1 := by
  have hlen : (markerFor crypto key (tc / 30 : Nat) keyShare).val.length = 24 := Block.length_val _
  have hfields : ¬((markerFor crypto key (tc / 30 : Nat) keyShare).val.length ≠ 24 ∨ key = [] ∨ keyShare = []) := by
    rintro (h | h | h)
    · exact h hlen
    · exact hkey h
    · exact hshare h
  rw [markerMatchesKey, if_neg hfields, any_eq_true]
  constructor
  · rintro ⟨w, hw, heq⟩
    have hmarker : markerFor crypto key w keyShare = markerFor crypto key (tc / 30 : Nat) keyShare :=
      Block.ext (of_decide_eq_true heq)
    have hbytes : windowBytes w = windowBytes (tc / 30 : Nat) := by
      by_contra hne
      exact hmac w hw hne hmarker
    obtain ⟨hlo, hhi⟩ := mem_windowsAround.mp hw
    have hwin : w = (tc / 30 : Nat) := windowBytes_inj (by omega) (by omega) hbytes
    omega
  · intro hnear
    exact ⟨(tc / 30 : Nat), mem_windowsAround.mpr (by omega), decide_eq_true rfl⟩

end

/-- Among users with different tags, the random that the client wrote is resolved to its user if the windows
    of the clocks differ by one at most, and rejected otherwise. -/
theorem hello_resolves_to_user (crypto : Crypto) (cfg : ServerConfig) (users : List UserEntry) (u : UserEntry)
    (ephPriv random : Bytes) (tc ts : Nat) {seed shared : Bytes} (hidentity : cfg.identity = some seed)
    (hu : u ∈ users) (hlen : u.psk.length = 32)
    (htags : users.Pairwise fun x y => userTag crypto x.psk ≠ userTag crypto y.psk)
    (hrandom : random.length = 32) (htc : tc < 2 ^ 63) (hts : ts < 2 ^ 63)
    (hclient : crypto.ecdh ephPriv
     (crypto.publicKey (crypto.hkdf seed (ascii "whispera-selector-x25519-v1"))) = some shared)
    (hserver : crypto.ecdh (crypto.hkdf seed (ascii "whispera-selector-x25519-v1"))
     (crypto.publicKey ephPriv) = some shared)
    (hmac : ∀ w ∈ windowsAround ts, windowBytes w ≠ windowBytes (tc / 30 : Nat) →
      markerFor crypto (deriveKey crypto u.psk) w (crypto.publicKey ephPriv) ≠
        markerFor crypto (deriveKey crypto u.psk) (tc / 30 : Nat) (crypto.publicKey ephPriv)) :
    ∃ hello, helloRandom crypto u.psk ephPriv
      (crypto.publicKey (crypto.hkdf seed (ascii "whispera-selector-x25519-v1")))
        random tc = some hello ∧
      resolveBySelector crypto cfg (buildIndex crypto cfg.sharedSecret users) hello (crypto.publicKey ephPriv) ts =
        if ts / 30 ≤ tc / 30 + 1 ∧ tc / 30 ≤ ts / 30 + 1 then .ok (selectorEntry crypto u.userID u.psk)
        else .error .staleMarker := by
  have hshare : (crypto.publicKey ephPriv).length = 32 := crypto.length_publicKey ephPriv
  have hne : crypto.publicKey ephPriv ≠ [] := by
    intro h
    rw [h] at hshare
    cases hshare
  have hkey : deriveKey crypto u.psk ≠ [] := by
    intro h
    have hmaclen := crypto.length_hmac u.psk (ascii "whispera-camo-v1")
    rw [deriveKey, if_neg (not_not.mpr hlen)] at h
    rw [h] at hmaclen
    cases hmaclen
  obtain ⟨sel, hbuild, hopen⟩ := open_build u.psk hshare hclient hserver
  have hpriv : serverKeyFromSeed crypto seed = some (crypto.hkdf seed (ascii "whispera-selector-x25519-v1")) :=
    if_pos (crypto.length_hkdf _ _)
  have hdiv : (tc : Int).tdiv windowSeconds = ((tc / 30 : Nat) : Int) := rfl
  have hwrite : helloRandom crypto u.psk ephPriv (crypto.publicKey (crypto.hkdf seed (ascii "whispera-selector-x25519-v1")))
      random tc = some (sel.val ++
        (markerFor crypto (deriveKey crypto u.psk) (tc / 30 : Nat) (crypto.publicKey ephPriv)).val) := by
    simp only [helloRandom, hbuild, Option.map_some, writeRandom, hrandom, ne_eq, not_true_eq_false, if_false, hdiv]
  refine ⟨_, hwrite, ?_⟩
  have hlen32 : (sel.val ++ (markerFor crypto (deriveKey crypto u.psk) (tc / 30 : Nat)
      (crypto.publicKey ephPriv)).val).length = 32 := by
    rw [length_append, sel.length_val, Block.length_val]
  rw [resolveBySelector, if_neg (by simp only [hlen32, hshare, ne_eq, not_true_eq_false, or_self, not_false_eq_true])]
  simp only [hidentity, hpriv, splitRandom_append, hopen, lookup_buildIndex hu hlen htags]
  by_cases hnear : ts / 30 ≤ tc / 30 + 1 ∧ tc / 30 ≤ ts / 30 + 1
  · rw [if_pos hnear]
    exact if_pos ((markerMatchesKey_iff hkey hne htc hts hmac).mpr hnear)
  · rw [if_neg hnear]
    exact if_neg fun h => hnear ((markerMatchesKey_iff hkey hne htc hts hmac).mp h)

/-- Functions given by tables of values; what is not in a table does not matter. -/
def Crypto.ofTables (hmac hkdf ecdh : List ((Bytes × Bytes) × Bytes))
    (sha256 publicKey : List (Bytes × Bytes)) : Crypto where
  hmac key msg := (Block.copy 32 ((hmac.lookup (key, msg)).getD (msg.take 8))).val
  sha256 msg := (Block.copy 32 ((sha256.lookup msg).getD [])).val
  hkdf secret info := (Block.copy 32 ((hkdf.lookup (secret, info)).getD [])).val
  publicKey priv := (Block.copy 32 ((publicKey.lookup priv).getD [])).val
  ecdh priv pub := ecdh.lookup (priv, pub)
  length_hmac _ _ := Block.length_val _
  length_hkdf _ _ := Block.length_val _
  length_publicKey _ := Block.length_val _

def aliceKey : Bytes := (range 32).map fun i => UInt8.ofNat (i + 1)
def bobKey : Bytes := (range 32).map fun i => UInt8.ofNat (i + 33)

def alice : UserEntry := { userID := "alice", psk := aliceKey }
def bob : UserEntry := { userID := "bob", psk := bobKey }

def sampleSeed : Bytes := replicate 32 7
def sampleEph : Bytes := replicate 32 9
def sampleServerPriv : Bytes := put 32 0x2060f69e93d64f8c2d304a50b782e6094cf41bd5d36ed7e6c80dd379190adfa6
def sampleServerPub : Bytes := put 32 0x326df45542f6d6f842a2ffbea3bb52c02df8d23668a51d2670f0d8cb19c4b174
def sampleKeyShare : Bytes := put 32 0x57db4b359f23ae5e146e4e2512056704722506348c150c14753d0c933d04d421
def sampleShared : Bytes := put 32 0x56f65a13cfefae62ac2449dbbed7b9de2a9cdbbbf7f86df89d25003222fb082d
def aliceCamoKey : Bytes := put 32 0x8f349186d437a9c4630f5e2361e64df578980f336fb216d5336f342cf065a057
def aliceAuthKey : Bytes := put 32 0x033e09edc18c07152434d4651a6b1f4a332c4a8023cbb1bc7fc9cd302f6a21a9
def bobAuthKey : Bytes := put 32 0x386ec1fe8abb498ad9e0e469b1c3de9a52072495b99a632b15a2b824d1b4d4df

def aliceSession : Bytes := (range 16).map fun i => UInt8.ofNat (i + 1)
def bobSession : Bytes := (range 16).map fun i => UInt8.ofNat (i + 17)

def sampleHmac : List ((Bytes × Bytes) × Bytes) := [
    ((aliceKey, ascii "whispera-uid-v1"),
      put 32 0x8f0732da03ec3124ca1ab29eaaaf97bbf86cecaa6ba8e2bb8990687b15d1f4dc),
    ((bobKey, ascii "whispera-uid-v1"),
      put 32 0x616fe74576162f74954141e985918689a2d37c9f400c76d4099e9c25a15a0b3f),
    ((aliceKey, ascii "whispera-camo-v1"), aliceCamoKey),
    ((aliceCamoKey, windowBytes 56666666 ++ sampleKeyShare),
      put 32 0xd63229c2f4283ad527ab5a8ab6a8ecb19731101740088ef90eab934fbc6fcd4b),
    ((aliceCamoKey, windowBytes 56666667 ++ sampleKeyShare),
      put 32 0x974d7d1b5b7321de1d34bb69f1bd39642db3da29871520b896c255ab137ee630),
    ((aliceCamoKey, windowBytes 56666668 ++ sampleKeyShare),
      put 32 0x3423147e67d503846374bbd1b73c4b98d6df7c437a660c80960dcea2384d2a74),
    ((aliceAuthKey, windowBytes 56666667 ++ aliceSession),
      put 32 0x281f11d1d360bd848aa3ed946dd2b2b919e777deec86edd984aa96cbdbe8bd79),
    ((aliceAuthKey, windowBytes 56666668 ++ aliceSession),
      put 32 0x1229d3831c088eb20f41196cd4d9bf21dca9e81de5423ce201dd95a4d9fcba75),
    ((aliceAuthKey, windowBytes 56666668 ++ bobSession),
      put 32 0xb2c0fa4b5a4e4ef81c9cc915e0ae459e67f2e8c7aa5d62204777f9a2774d8e5b),
    ((bobAuthKey, windowBytes 56666668 ++ bobSession),
      put 32 0x2452f0ab907058bb9663020cb57401548a5f3fbbb2584cf6f056eb26c966c81a)]

def sampleCrypto : Crypto := .ofTables sampleHmac
  [((sampleSeed, ascii "whispera-selector-x25519-v1"), sampleServerPriv),
    ((aliceKey, ascii "whispera-auth-v1"), aliceAuthKey), ((bobKey, ascii "whispera-auth-v1"), bobAuthKey)]
  [((sampleEph, sampleServerPub), sampleShared), ((sampleServerPriv, sampleKeyShare), sampleShared)]
  [(ascii "whispera-sel-v1" ++ sampleShared,
      put 32 0xa8ddeed8ae4ceef5dab2f79a2883b360ae25817214fb22ed0ddc1fb9b3c289a4)]
  [(sampleServerPriv, sampleServerPub), (sampleEph, sampleKeyShare)]

def sampleConfig : ServerConfig := { sharedSecret := [], identity := some sampleSeed, versioned := true }

theorem hello_resolves_to_alice :
    ∃ hello, helloRandom sampleCrypto aliceKey sampleEph sampleServerPub (replicate 32 0) 1700000000 = some hello ∧
      resolveBySelector sampleCrypto sampleConfig
        (buildIndex sampleCrypto [] [alice, bob]) hello sampleKeyShare 1700000030 =
        .ok (selectorEntry sampleCrypto "alice" aliceKey) := by
  have hclient : sampleCrypto.ecdh sampleEph (sampleCrypto.publicKey
      (sampleCrypto.hkdf sampleSeed (ascii "whispera-selector-x25519-v1"))) = some sampleShared := by decide +kernel
  have hserver : sampleCrypto.ecdh (sampleCrypto.hkdf sampleSeed (ascii "whispera-selector-x25519-v1"))
      (sampleCrypto.publicKey sampleEph) = some sampleShared := by decide +kernel
  have hpub : sampleCrypto.publicKey (sampleCrypto.hkdf sampleSeed (ascii "whispera-selector-x25519-v1")) =
      sampleServerPub := by decide +kernel
  have hshare : sampleCrypto.publicKey sampleEph = sampleKeyShare := by decide +kernel
  obtain ⟨hello, hwrite, hresolve⟩ := hello_resolves_to_user sampleCrypto sampleConfig [alice, bob] alice sampleEph
    (replicate 32 0) 1700000000 1700000030 rfl (by simp) (by decide +kernel) (by decide +kernel) (by decide +kernel)
    (by decide) (by decide) hclient hserver (by decide +kernel)
  rw [hpub] at hwrite
  rw [hshare] at hresolve
  exact ⟨hello, hwrite, hresolve⟩

end Whispera
