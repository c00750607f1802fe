import Whispera.Updater

/-! The signature of the payload is verified only if the manifest has one. -/

namespace Whispera
open BigEndian Strings Table

namespace Updater
variable {sha256 : Bytes → Bytes} {verify : Bytes → Bytes → Bytes → Bool}
variable {u : Updater} {e : UpdateEnv} {info : VersionInfo} {key data : Bytes}

/-- The manifest carries a signature of the payload that the key verifies. -/
def Signed (sha256 : Bytes → Bytes) (verify : Bytes → Bytes → Bytes → Bool) (key : Bytes)
    (info : VersionInfo) (data : Bytes) : Prop :=
  info.signature ≠ [] ∧ ∃ sig, hexDecode info.signature = some sig ∧ verify key (sha256 data) sig = true

/-- The round comes to the installation, but for the signature: another version, a download within its size
    and with the checksum of the manifest, and operations on files that succeed. -/
def Installs (sha256 : Bytes → Bytes) (u : Updater) (e : UpdateEnv) (info : VersionInfo) (data : Bytes) : Prop :=
  info.version ≠ u.currentVersion ∧ download e info.size = .ok data ∧ e.readForChecksum = true ∧
    hexEncode (sha256 data) = info.checksum ∧ e.backup = .ok ∧ e.install = true

theorem verifyChecksum_ok_iff {expected : Bytes} :
    verifyChecksum sha256 e data expected = .ok () ↔ e.readForChecksum = true ∧ hexEncode (sha256 data) = expected := by
  unfold verifyChecksum
  split
  · rename_i hr
    split
    · rename_i hc
      exact iff_of_true rfl ⟨hr, hc⟩
    · rename_i hc
      exact iff_of_false nofun fun h => hc h.2
  · rename_i hr
    exact iff_of_false nofun fun h => hr h.1

theorem verifySignature_ok {sigHex : Bytes} (h : verifySignature sha256 verify e key data sigHex = .ok ()) :
    ∃ sig, hexDecode sigHex = some sig ∧ verify key (sha256 data) sig = true := by
  unfold verifySignature at h
  split at h
  · cases h
  · rename_i sig hsig
    split at h
    · split at h
      · rename_i hv
        exact ⟨sig, hsig, hv⟩
      · cases h
    · cases h

theorem signed_of_checks (hkey : u.publicKey = some key) (hsig : info.signature ≠ [])
    (h : u.checks sha256 verify e info data = .ok ()) : Signed sha256 verify key info data := by
  unfold checks at h
  split at h
  · cases h
  · rw [hkey] at h
    simp only [if_neg hsig] at h
    exact ⟨hsig, verifySignature_ok h⟩

theorem checks_unsigned (hkey : u.publicKey = some key) (hsig : info.signature = []) :
    u.checks sha256 verify e info data = verifyChecksum sha256 e data info.checksum := by
  unfold checks
  split
  · rename_i err h
    rw [h]
  · rename_i h
    rw [hkey, h]
    exact if_pos hsig

theorem apply_payload_iff : (u.apply sha256 verify e info).2.1 = some (.payload data) ↔
      download e info.size = .ok data ∧ u.checks sha256 verify e info data = .ok () ∧ e.backup = .ok ∧
      e.install = true := by
  cases hd : download e info.size with
  | error err =>
    simp only [apply, hd]
    exact iff_of_false nofun fun h => by cases h.1
  | ok body =>
    have hbody : (Except.ok body : Except UpdateError _) = .ok data ↔ body = data := ⟨Except.ok.inj, congrArg _⟩
    rw [hbody]
    cases hc : u.checks sha256 verify e info body with
    | error err =>
      simp only [apply, hd, hc]
      refine iff_of_false nofun fun h => ?_
      rw [← h.1, hc] at h
      cases h.2.1
    | ok =>
      simp only [apply, hd, hc]
      cases hb : e.backup with
      | failed written => exact iff_of_false nofun fun h => by cases h.2.2.1
      | ok =>
        cases hi : e.install with
        | true =>
          constructor
          · intro h
            obtain rfl : body = data := Replacement.payload.inj (Option.some.inj h)
            exact ⟨rfl, hc, rfl, rfl⟩
          · intro h
            rw [← h.1]
            rfl
        | false =>
          refine iff_of_false (fun h => ?_) fun h => by cases h.2.2.2
          simp only [rollback, Bool.false_eq_true, if_false] at h
          split at h
          · cases h
          · split at h <;> cases h

theorem checkAndApply_eq (hinfo : e.manifest = some info) (hv : info.version ≠ u.currentVersion) :
    u.checkAndApply sha256 verify e = u.apply sha256 verify e info := by
  simp only [checkAndApply, hinfo, if_neg hv]

theorem checkAndApply_same (hinfo : e.manifest = some info) (hv : info.version = u.currentVersion) :
    u.checkAndApply sha256 verify e = (u, none, none) := by
  simp only [checkAndApply, hinfo, if_pos hv]

/-- With a public key, only signed payloads are put in place just if the manifest has a signature or the round
    does not come to the installation. -/
theorem only_signed_payloads_iff (hkey : u.publicKey = some key) (hinfo : e.manifest = some info) :
    (∀ data, (u.checkAndApply sha256 verify e).2.1 = some (.payload data) → Signed sha256 verify key info data) ↔
      info.signature ≠ [] ∨ ∀ data, ¬ Installs sha256 u e info data := by
  by_cases hv : info.version = u.currentVersion
  · rw [checkAndApply_same hinfo hv]
    exact iff_of_true nofun (Or.inr fun data h => h.1 hv)
  rw [checkAndApply_eq hinfo hv]
  by_cases hsig : info.signature = []
  · rw [or_iff_right (not_not.mpr hsig)]
    refine forall_congr' fun data => ?_
    have hno : ¬ Signed sha256 verify key info data := fun h => h.1 hsig
    rw [apply_payload_iff, checks_unsigned hkey hsig, verifyChecksum_ok_iff]
    constructor
    · exact fun h hi => hno (h ⟨hi.2.1, ⟨hi.2.2.1, hi.2.2.2.1⟩, hi.2.2.2.2⟩)
    · exact fun h hp => absurd ⟨hv, hp.1, hp.2.1.1, hp.2.1.2, hp.2.2⟩ h
  · refine iff_of_true (fun data h => ?_) (Or.inl hsig)
    exact signed_of_checks hkey hsig (apply_payload_iff.mp h).2.1

def sampleKey : Bytes := put 32 0xea4a6c63e29c520abef5507b132ec5f9954776aebebe7b92421eea691446d22c

def sampleDigest : Bytes := put 32 0xdf7e70e5021544f4834bbee64a9e3789febc4be81470df629cad6ddb03320a5c

def sampleSig : Bytes :=
  put 32 0x3997fe53f6cd2821d3ff066122f255154ccf7c2a9f30111a709d8f4a469777e1 ++
    put 32 0x8f21bf485afa2d64848b886d580446d7e278a1bc528573537b0cabb81716900c

def sampleHash (data : Bytes) : Bytes := if data = [66] then sampleDigest else List.replicate 32 0

def sampleVerify (key digest sig : Bytes) : Bool := key = sampleKey && digest = sampleDigest && sig = sampleSig

def keyed : Updater := { publicKey := some sampleKey, currentVersion := bytes "1.0", binary := some [1], backups := ∅ }

def sampleInfo (signature : Bytes) : VersionInfo :=
  { version := bytes "1.1", checksum := hexEncode sampleDigest, signature := signature, size := 1 }

def sampleEnv (signature : Bytes) : UpdateEnv where
  manifest := some (sampleInfo signature)
  body := some [66]

/-- Without a signature in the manifest, the payload is installed as well. -/
theorem unsigned_payload_is_installed :
    (keyed.checkAndApply sampleHash sampleVerify (sampleEnv [])).2.1 = some (.payload [66]) ∧
      (keyed.checkAndApply sampleHash sampleVerify (sampleEnv [])).1.binary = some [66] ∧
      ¬ Signed sampleHash sampleVerify sampleKey (sampleInfo []) [66] :=
  ⟨by decide +kernel, by decide +kernel, fun h => h.1 rfl⟩

theorem signed_payload_is_installed :
    (keyed.checkAndApply sampleHash sampleVerify (sampleEnv (hexEncode sampleSig))).2.1 = some (.payload [66]) ∧
      Signed sampleHash sampleVerify sampleKey (sampleInfo (hexEncode sampleSig)) [66] := by
  have hinstalled : (keyed.checkAndApply sampleHash sampleVerify (sampleEnv (hexEncode sampleSig))).2.1 =
      some (.payload [66]) := by decide +kernel
  exact ⟨hinstalled, (only_signed_payloads_iff rfl rfl).mpr (Or.inl (by decide +kernel)) [66] hinstalled⟩

end Updater
end Whispera
