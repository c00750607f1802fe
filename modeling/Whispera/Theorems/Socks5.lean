import Whispera.Socks5

/-! Offering only the method without authentication is the one way that does not pass the handler. -/

namespace Whispera
open List Reader

namespace Socks
variable {α β : Type} {c c' : SocksConn}

/-- The exchange succeeds with `a`. -/
def Returns (m : Socks α) (c : SocksConn) (a : α) (c' : SocksConn) : Prop :=
  Eq (α := Except Err α × SocksConn) (m c) (.ok a, c')

theorem returns_bind {m : Socks α} {k : α → Socks β} {b : β} :
    Returns (m >>= k) c b c' ↔ ∃ a c₁, Returns m c a c₁ ∧ Returns (k a) c₁ b c' := by
  have hrun : (m >>= k) c = match m c with
      | (.ok a, c₁) => k a c₁
      | (.error e, c₁) => (.error e, c₁) := by
    change (match m c with | (a, c₁) => ExceptT.bindCont k a c₁) = _
    rcases m c with ⟨_ | _, _⟩ <;> rfl
  unfold Returns
  rw [hrun]
  rcases m c with ⟨e | a, c₁⟩
  · simp
  · simp

theorem returns_pure {a b : α} : Returns (pure a) c b c' ↔ a = b ∧ c = c' := by
  change Eq (α := Except Err α × SocksConn) (.ok a, c) (.ok b, c') ↔ _
  simp

theorem not_returns_throw {e : Err} {a : α} : ¬Returns (throw e) c a c' := by
  change ¬Eq (α := Except Err α × SocksConn) (.error e, c) (.ok a, c')
  simp

theorem returns_wrapAuth {m : Socks Unit} : Returns (wrapAuth m) c () c' ↔ Returns m c () c' := by
  unfold Returns wrapAuth
  rcases m c with ⟨_ | _, _⟩ <;> simp

theorem Returns.readFull {n : Nat} {data : Bytes} (h : Returns (readFull n) c data c') :
    c.input.bytes = data ++ c'.input.bytes ∧ data.length = n ∧ c'.output = c.output ∧ c'.asked = c.asked := by
  unfold Returns Socks.readFull at h
  by_cases hlen : c.input.bytes.length < n
  · obtain ⟨s, hs, -⟩ := Stream.readFull_short (s := c.input) ⟨rfl, rfl⟩ hlen
    rw [hs] at h
    cases h
  · have htake : (c.input.bytes.take n).length = n := length_take_of_le (Nat.le_of_not_lt hlen)
    obtain ⟨s, hs, hrest, -⟩ :=
      Stream.readFull_append (s := c.input) ⟨(take_append_drop n c.input.bytes).symm, rfl⟩
    rw [htake] at hs
    rw [hs] at h
    cases h
    exact ⟨by rw [hrest, take_append_drop], htake, rfl, rfl⟩

theorem readFull_returns {data rest : Bytes} (h : c.input.bytes = data ++ rest) :
    ∃ c', Returns (Socks.readFull data.length) c data c' ∧ c'.input.bytes = rest ∧ c'.output = c.output ∧
      c'.asked = c.asked := by
  obtain ⟨s, hs, hrest, -⟩ := Stream.readFull_append (s := c.input) ⟨h, rfl⟩
  refine ⟨{ c with input := s }, ?_, hrest, rfl, rfl⟩
  unfold Returns Socks.readFull
  rw [hs]

theorem Returns.readByte {data : Bytes} (h : Returns (Socks.readFull 1) c data c') :
    ∃ b, data = [b] ∧ c.input.bytes = b :: c'.input.bytes ∧ c'.output = c.output ∧ c'.asked = c.asked := by
  obtain ⟨hbytes, hlen, hout, hasked⟩ := h.readFull
  obtain ⟨b, rfl⟩ := length_eq_one_iff.mp hlen
  exact ⟨b, rfl, hbytes, hout, hasked⟩

theorem returns_write {out : Bytes} : Returns (write out) c () c' ↔
    c.output.write out = (none, c'.output) ∧ c'.input = c.input ∧ c'.asked = c.asked := by
  unfold Returns write
  rcases c.output.write out with ⟨_ | e, k⟩
  · cases c'
    simp [eq_comm, and_left_comm]
  · simp

theorem returns_callHandler {auth : AuthHandler} {u p : Bytes} {b : Bool} :
    Returns (callHandler (some auth) u p) c b c' ↔
      auth u p = b ∧ { c with asked := c.asked ++ [(u, p)] } = c' := by
  simp [Returns, callHandler]

end Socks

open Socks

/-! ### What a client sends -/

def greeting (methods : Bytes) : Bytes := socks5Version :: UInt8.ofNat methods.length :: methods

def credentials (username password : Bytes) : Bytes :=
  0x01 :: UInt8.ofNat username.length :: (username ++ UInt8.ofNat password.length :: password)

/-- The client's bytes start with a greeting, and go on with a user name and a password. -/
def SentCredentials (bytes username password : Bytes) : Prop :=
  ∃ methods rest, methods.length < 256 ∧ username.length < 256 ∧ password.length < 256 ∧
    bytes = greeting methods ++ (credentials username password ++ rest)

/-- The client offers no authentication alone, and the server's answer goes out. -/
def OffersNoAuthOnly (input : Stream) (output : Sink) : Prop :=
  ∃ methods rest, methods.length < 256 ∧ input.bytes = greeting methods ++ rest ∧
    socks5MethodNoAuth ∈ methods ∧ socks5MethodUsernamePass ∉ methods ∧
    (output.write [socks5Version, socks5MethodNoAuth]).1 = none

theorem lengthByte_inj {a b r s : Bytes} (ha : a.length < 256) (hb : b.length < 256)
    (h : UInt8.ofNat a.length :: (a ++ r) = UInt8.ofNat b.length :: (b ++ s)) : a = b ∧ r = s := by
  obtain ⟨hlen, hrest⟩ := List.cons.inj h
  have hlen' := congrArg UInt8.toNat hlen
  rw [UInt8.toNat_ofNat_of_lt' ha, UInt8.toNat_ofNat_of_lt' hb] at hlen'
  exact append_inj hrest hlen'

theorem greeting_inj {methods methods' r s : Bytes} (h : methods.length < 256) (h' : methods'.length < 256)
    (heq : greeting methods ++ r = greeting methods' ++ s) : methods = methods' ∧ r = s :=
  lengthByte_inj h h' (List.cons.inj heq).2

theorem credentials_inj {u p u' p' r s : Bytes} (hu : u.length < 256) (hp : p.length < 256) (hu' : u'.length < 256)
    (hp' : p'.length < 256) (heq : credentials u p ++ r = credentials u' p' ++ s) : u = u' ∧ p = p' := by
  simp only [credentials, cons_append, append_assoc] at heq
  obtain ⟨rfl, hrest⟩ := lengthByte_inj hu hu' (List.cons.inj heq).2
  obtain ⟨rfl, -⟩ := lengthByte_inj hp hp' hrest
  exact ⟨rfl, rfl⟩

section
variable {auth : AuthHandler} {c c' : SocksConn}

theorem handleUsernamePasswordAuth_returns (h : Returns (handleUsernamePasswordAuth (some auth)) c () c') :
    ∃ username password, username.length < 256 ∧ password.length < 256 ∧
      c.input.bytes = credentials username password ++ c'.input.bytes ∧
      c'.asked = c.asked ++ [(username, password)] ∧ auth username password = true := by
  obtain ⟨version, c₁, hversion, h⟩ := returns_bind.mp h
  obtain ⟨v, rfl, hv, -, ha₁⟩ := hversion.readByte
  split at h
  · exact absurd h not_returns_throw
  rename_i hone
  obtain rfl : v = 0x01 := not_not.mp hone
  obtain ⟨usernameLen, c₂, hulen, h⟩ := returns_bind.mp h
  obtain ⟨ulen, rfl, hu, -, ha₂⟩ := hulen.readByte
  obtain ⟨username, c₃, husername, h⟩ := returns_bind.mp h
  obtain ⟨husername, hulen, -, ha₃⟩ := husername.readFull
  obtain ⟨passwordLen, c₄, hplen, h⟩ := returns_bind.mp h
  obtain ⟨plen, rfl, hp, -, ha₄⟩ := hplen.readByte
  obtain ⟨password, c₅, hpassword, h⟩ := returns_bind.mp h
  obtain ⟨hpassword, hplen, -, ha₅⟩ := hpassword.readFull
  obtain ⟨accepted, c₆, hasked, h⟩ := returns_bind.mp h
  obtain ⟨rfl, rfl⟩ := returns_callHandler.mp hasked
  have hulen' : UInt8.ofNat username.length = ulen := by rw [hulen]; exact UInt8.ofNat_toNat
  have hplen' : UInt8.ofNat password.length = plen := by rw [hplen]; exact UInt8.ofNat_toNat
  split at h
  · rename_i haccepted
    obtain ⟨-, hinput, hlast⟩ := returns_write.mp h
    refine ⟨username, password, hulen ▸ UInt8.toNat_lt ulen, hplen ▸ UInt8.toNat_lt plen, ?_, ?_, haccepted⟩
    · rw [hv, hu, husername, hp, hpassword, credentials, hulen', hplen', hinput]
      simp
    · rw [hlast, ha₅, ha₄, ha₃, ha₂, ha₁]
  · obtain ⟨_, _, -, h⟩ := returns_bind.mp h
    exact absurd h not_returns_throw

theorem handleHandshake_returns {authHandler : Option AuthHandler} (h : Returns (handleHandshake authHandler) c () c') :
    ∃ methods c₁, methods.length < 256 ∧ c.input.bytes = greeting methods ++ c₁.input.bytes ∧ c₁.asked = c.asked ∧
      c.output.write [socks5Version, selectMethod authHandler methods] = (none, c₁.output) ∧
      selectMethod authHandler methods ≠ socks5MethodNotAcceptable ∧
      (selectMethod authHandler methods = socks5MethodUsernamePass →
        Returns (handleUsernamePasswordAuth authHandler) c₁ () c') := by
  obtain ⟨buf, c₁, hbuf, h⟩ := returns_bind.mp h
  obtain ⟨hbytes, hlen, ho₁, ha₁⟩ := hbuf.readFull
  obtain ⟨v, n, rfl⟩ := length_eq_two.mp hlen
  split at h
  · exact absurd h not_returns_throw
  rename_i hv
  obtain rfl : v = socks5Version := not_not.mp hv
  split at h
  · exact absurd h not_returns_throw
  obtain ⟨methods, c₂, hmethods, h⟩ := returns_bind.mp h
  obtain ⟨hmethods, hn, ho₂, ha₂⟩ := hmethods.readFull
  obtain ⟨_, c₃, hwrite, h⟩ := returns_bind.mp h
  obtain ⟨hwrite, hi₃, ha₃⟩ := returns_write.mp hwrite
  have hn' : UInt8.ofNat methods.length = n := by rw [hn]; exact UInt8.ofNat_toNat
  refine ⟨methods, c₃, hn ▸ UInt8.toNat_lt n, ?_, ?_, ?_, ?_⟩
  · rw [hbytes, hmethods, hi₃, greeting, hn']
    rfl
  · rw [ha₃, ha₂, ha₁]
  · rw [← ho₁, ← ho₂]
    exact hwrite
  · split at h
    · exact absurd h not_returns_throw
    · rename_i hacceptable
      refine ⟨hacceptable, fun hpass => ?_⟩
      rw [if_pos hpass] at h
      exact returns_wrapAuth.mp h

theorem credentials_returns {username password rest : Bytes} (hu : username.length < 256)
    (hp : password.length < 256) (hbytes : c.input.bytes = credentials username password ++ rest)
    (hwrite : (c.output.write [0x01, 0x00]).1 = none) (haccepted : auth username password = true) :
    ∃ c', Returns (handleUsernamePasswordAuth (some auth)) c () c' := by
  have hulen : (UInt8.ofNat username.length).toNat = username.length := UInt8.toNat_ofNat_of_lt' hu
  have hplen : (UInt8.ofNat password.length).toNat = password.length := UInt8.toNat_ofNat_of_lt' hp
  have hstart : c.input.bytes = [0x01] ++ ([UInt8.ofNat username.length] ++ (username ++
      ([UInt8.ofNat password.length] ++ (password ++ rest)))) := by
    rw [hbytes, credentials]
    simp
  obtain ⟨c₁, h₁, hi₁, ho₁, -⟩ := readFull_returns hstart
  obtain ⟨c₂, h₂, hi₂, ho₂, -⟩ := readFull_returns hi₁
  obtain ⟨c₃, h₃, hi₃, ho₃, -⟩ := readFull_returns hi₂
  obtain ⟨c₄, h₄, hi₄, ho₄, -⟩ := readFull_returns hi₃
  obtain ⟨c₅, h₅, -, ho₅, -⟩ := readFull_returns hi₄
  rcases hout : c.output.write [0x01, 0x00] with ⟨err, k⟩
  obtain rfl : err = none := by simpa only [hout] using hwrite
  refine ⟨{ c₅ with output := k, asked := c₅.asked ++ [(username, password)] }, ?_⟩
  refine returns_bind.mpr ⟨_, c₁, h₁, ?_⟩
  rw [headD_cons, if_neg (not_not_intro rfl)]
  refine returns_bind.mpr ⟨_, c₂, h₂, returns_bind.mpr ⟨_, c₃, by rwa [headD_cons, hulen], ?_⟩⟩
  refine returns_bind.mpr ⟨_, c₄, h₄, returns_bind.mpr ⟨_, c₅, by rwa [headD_cons, hplen], ?_⟩⟩
  refine returns_bind.mpr ⟨true, _, returns_callHandler.mpr ⟨haccepted, rfl⟩, ?_⟩
  rw [if_pos rfl]
  refine returns_write.mpr ⟨?_, rfl, rfl⟩
  rw [← hout, ho₅, ho₄, ho₃, ho₂, ho₁]

theorem greeting_returns {authHandler : Option AuthHandler} {methods rest : Bytes} (hlen : methods.length < 256)
    (hbytes : c.input.bytes = greeting methods ++ rest)
    (hwrite : (c.output.write [socks5Version, selectMethod authHandler methods]).1 = none)
    (hacceptable : selectMethod authHandler methods ≠ socks5MethodNotAcceptable) :
    ∃ c₁, c₁.input.bytes = rest ∧ c₁.asked = c.asked ∧
      c.output.write [socks5Version, selectMethod authHandler methods] = (none, c₁.output) ∧
      ∀ c', (if selectMethod authHandler methods = socks5MethodUsernamePass then
          Returns (handleUsernamePasswordAuth authHandler) c₁ () c' else c₁ = c') →
        Returns (handleHandshake authHandler) c () c' := by
  have hn : (UInt8.ofNat methods.length).toNat = methods.length := UInt8.toNat_ofNat_of_lt' hlen
  have hne : methods.length ≠ 0 := by
    intro hnil
    rw [length_eq_zero_iff.mp hnil] at hacceptable
    exact hacceptable (by simp [selectMethod])
  have hstart : c.input.bytes = [socks5Version, UInt8.ofNat methods.length] ++ (methods ++ rest) := hbytes
  obtain ⟨c₁, hbuf, hi₁, ho₁, ha₁⟩ := readFull_returns hstart
  obtain ⟨c₂, hmethods, hi₂, ho₂, ha₂⟩ := readFull_returns hi₁
  rcases hout : c.output.write [socks5Version, selectMethod authHandler methods] with ⟨err, k⟩
  obtain rfl : err = none := by simpa only [hout] using hwrite
  refine ⟨{ c₂ with output := k }, hi₂, ha₂.trans ha₁, rfl, fun c' hrest => ?_⟩
  refine returns_bind.mpr ⟨_, c₁, hbuf, ?_⟩
  rw [headD_cons, if_neg (not_not_intro rfl), getD_cons_succ, getD_cons_zero, hn, if_neg hne]
  refine returns_bind.mpr ⟨methods, c₂, hmethods, ?_⟩
  refine returns_bind.mpr ⟨(), { c₂ with output := k }, returns_write.mpr ⟨?_, rfl, rfl⟩, ?_⟩
  · rw [ho₂, ho₁, hout]
  · rw [if_neg hacceptable]
    split at hrest
    · rename_i hpass
      rw [if_pos hpass]
      exact returns_wrapAuth.mpr hrest
    · rename_i hpass
      rw [if_neg hpass]
      exact returns_pure.mpr ⟨rfl, hrest⟩

end

theorem OffersNoAuthOnly.returns {input : Stream} {output : Sink} (h : OffersNoAuthOnly input output)
    (auth : AuthHandler) :
    ∃ c', Returns (handleHandshake (some auth)) ⟨input, output, []⟩ () c' ∧ c'.asked = [] := by
  obtain ⟨methods, rest, hlen, hbytes, hnoAuth, hpass, hwrite⟩ := h
  have hselect : selectMethod (some auth) methods = socks5MethodNoAuth := by simp [selectMethod, hnoAuth, hpass]
  have hacceptable : selectMethod (some auth) methods ≠ socks5MethodNotAcceptable := by
    rw [hselect]
    decide
  rw [← hselect] at hwrite
  obtain ⟨c', -, hasked, -, hreturns⟩ := greeting_returns (c := ⟨input, output, []⟩) hlen hbytes hwrite hacceptable
  have hpass' : selectMethod (some auth) methods ≠ socks5MethodUsernamePass := by
    rw [hselect]
    decide
  exact ⟨c', hreturns c' (by rw [if_neg hpass']), hasked⟩

/-- A client gets through only with a user name and a password that the handler took, except when it offers
    the method without authentication alone. -/
theorem authentication_enforced_iff (auth : AuthHandler) (input : Stream) (output : Sink) :
    (∀ c', Returns (handleHandshake (some auth)) ⟨input, output, []⟩ () c' →
      ∃ username password, SentCredentials input.bytes username password ∧ c'.asked = [(username, password)] ∧
        auth username password = true) ↔ ¬OffersNoAuthOnly input output := by
  constructor
  · intro h hoffers
    obtain ⟨c', hreturns, hasked⟩ := hoffers.returns auth
    obtain ⟨username, password, -, hcall, -⟩ := h c' hreturns
    rw [hasked] at hcall
    cases hcall
  · intro hoffers c' h
    obtain ⟨methods, c₁, hlen, hbytes, hasked, hwrite, hacceptable, hpass⟩ := handleHandshake_returns h
    by_cases hmethod : socks5MethodUsernamePass ∈ methods
    · have hselect : selectMethod (some auth) methods = socks5MethodUsernamePass := by simp [selectMethod, hmethod]
      obtain ⟨username, password, hu, hp, hrest, hcall, haccepted⟩ := handleUsernamePasswordAuth_returns (hpass hselect)
      refine ⟨username, password, ⟨methods, c'.input.bytes, hlen, hu, hp, ?_⟩, ?_, haccepted⟩
      · rw [← hrest]
        exact hbytes
      · rw [hcall, hasked]
        rfl
    · by_cases hnoAuth : socks5MethodNoAuth ∈ methods
      · have hselect : selectMethod (some auth) methods = socks5MethodNoAuth := by simp [selectMethod, hnoAuth, hmethod]
        rw [hselect] at hwrite
        exact absurd ⟨methods, c₁.input.bytes, hlen, hbytes, hnoAuth, hmethod, congrArg Prod.fst hwrite⟩ hoffers
      · exact absurd (by simp [selectMethod, hnoAuth, hmethod]) hacceptable

/-- A client that logs in gets through to a module with credentials exactly with these. -/
theorem module_login_iff {user pass methods u p rest : Bytes} {input : Stream} {out : Bytes} (huser : user ≠ [])
    (hmethod : socks5MethodUsernamePass ∈ methods) (hlen : methods.length < 256) (hu : u.length < 256)
    (hp : p.length < 256) (hbytes : input.bytes = greeting methods ++ (credentials u p ++ rest)) :
    (∃ c', Returns (handleHandshake (moduleHandler user pass)) ⟨input, ⟨out, none⟩, []⟩ () c') ↔ u = user ∧
    p = pass := by
  have hhandler : moduleHandler user pass = some (compareCredentials user pass) := if_pos huser
  have hselect : selectMethod (moduleHandler user pass) methods = socks5MethodUsernamePass := by
    simp [selectMethod, hhandler, hmethod]
  constructor
  · rintro ⟨c', h⟩
    obtain ⟨methods', c₁, hlen', hbytes', -, -, -, hpass⟩ := handleHandshake_returns h
    obtain ⟨rfl, hrest⟩ := greeting_inj hlen hlen' (hbytes.symm.trans hbytes')
    have hsub := hpass hselect
    rw [hhandler] at hsub
    obtain ⟨u', p', hu', hp', hsent, -, haccepted⟩ := handleUsernamePasswordAuth_returns hsub
    obtain ⟨rfl, rfl⟩ := credentials_inj hu hp hu' hp' (hrest.trans hsent)
    simpa [compareCredentials] using haccepted
  · intro haccepted
    have hacceptable : selectMethod (moduleHandler user pass) methods ≠ socks5MethodNotAcceptable := by
      rw [hselect]
      decide
    obtain ⟨c₁, hi₁, -, hout, hreturns⟩ := greeting_returns (c := ⟨input, ⟨out, none⟩, []⟩) hlen hbytes rfl hacceptable
    have hopen : c₁.output = ⟨out ++ _, none⟩ := (congrArg Prod.snd hout).symm
    have hwrite : (c₁.output.write [0x01, 0x00]).1 = none := by
      rw [hopen]
      rfl
    have hauth : compareCredentials user pass u p = true := by simpa [compareCredentials] using haccepted
    obtain ⟨c', hc'⟩ := credentials_returns hu hp hi₁ hwrite hauth
    refine ⟨c', hreturns c' ?_⟩
    rw [if_pos hselect, hhandler]
    exact hc'

theorem module_login_of_user : (∃ c', Returns (handleHandshake (moduleHandler [97] [98]))
      ⟨⟨greeting [2] ++ (credentials [97] [98] ++ []), fun _ => 0, .eof, false⟩, ⟨[], none⟩, []⟩ () c') ↔
    ([97] : Bytes) = [97] ∧ ([98] : Bytes) = [98] :=
  module_login_iff (by decide) (by decide) (by decide) (by decide) (by decide) rfl

/-- A client that offers the method without authentication alone gets through, whatever the handler. -/
theorem noAuth_passes_handler :
    ∃ c', Returns (handleHandshake (some fun _ _ => false)) ⟨⟨[5, 1, 0], fun _ => 0, .eof, false⟩, ⟨[], none⟩,
      []⟩ () c' ∧
      c'.asked = [] :=
  OffersNoAuthOnly.returns ⟨[0], [], by decide, rfl, by decide, by decide, rfl⟩ _

end Whispera
