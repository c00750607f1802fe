import Whispera.DatagramAddr
import Whispera.Lib.PrintedIP

/-! An address is sent as its bytes and comes back as Go prints it, so its text comes back only if it was
written that way. -/

namespace Whispera
open List BigEndian Net

variable (port : UInt16) (payload : Bytes) {ip : IP} {host : List Char}

theorem ofNat_get_port : UInt16.ofNat (get (putUint16 port.toNat)) = port := by
  rw [get_putUint16 port.toNat_lt, UInt16.ofNat_toNat]

theorem drop_port {a : Bytes} {n : Nat} (h : a.length = n) : (a ++ (putUint16 port.toNat ++ payload)).take n = a ∧
      ((a ++ (putUint16 port.toNat ++ payload)).drop n).take 2 = putUint16 port.toNat ∧
      (a ++ (putUint16 port.toNat ++ payload)).drop (n + 2) = payload := by
  refine ⟨take_left' h, ?_, ?_⟩
  · rw [drop_left' h, take_left' (length_putUint16 _)]
  · rw [← drop_drop, drop_left' h, drop_left' (length_putUint16 _)]

theorem decodeAddr_v4 (h : ip.length = 4) :
    decodeAddr (0x01 :: (ip ++ (putUint16 port.toNat ++ payload))) = some (ip.string, port, payload) := by
  obtain ⟨hip, hport, hrest⟩ := drop_port port payload h
  rw [decodeAddr, if_neg, hip, hport, hrest, ofNat_get_port]
  rw [length_cons, length_append, length_append, h, length_putUint16]
  omega

theorem decodeAddr_v6 (h : ip.length = 16) :
    decodeAddr (0x04 :: (ip ++ (putUint16 port.toNat ++ payload))) = some (ip.string, port, payload) := by
  obtain ⟨hip, hport, hrest⟩ := drop_port port payload h
  rw [decodeAddr, if_neg, hip, hport, hrest, ofNat_get_port]
  rw [length_cons, length_append, length_append, h, length_putUint16]
  omega

theorem decodeAddr_name {host : Bytes} (hpos : 1 ≤ host.length) (hlen : host.length ≤ 255) :
    decodeAddr (0x03 :: UInt8.ofNat host.length :: (host ++ (putUint16 port.toNat ++ payload))) =
    some (text host, port, payload) := by
  have hbyte : (UInt8.ofNat host.length).toNat = host.length := by
    rw [UInt8.toNat_ofNat']
    omega
  obtain ⟨hhost, hport, hrest⟩ := drop_port port payload (rfl : host.length = host.length)
  rw [decodeAddr]
  simp only [hbyte]
  rw [if_neg, hhost, hport, hrest, ofNat_get_port]
  simp only [length_cons, length_append, length_putUint16]
  omega

theorem hostBytes_text (host : Bytes) : hostBytes (text host) = host := by
  have hchar : ∀ b : UInt8, UInt8.ofNat (Char.ofNat b.toNat).toNat = b := by
    intro b
    have hvalid : b.toNat.isValidChar := .inl (Nat.lt_of_lt_of_le b.toNat_lt (by decide))
    rw [Char.ofNat, dif_pos hvalid]
    exact UInt8.ofNat_toNat
  rw [hostBytes, text, map_map]
  exact (map_congr_left fun b _ => hchar b).trans (map_id host)

theorem length_parseIPFast (h : parseIPFast host = some ip) : ip.length = 16 := by
  unfold parseIPFast at h
  split at h
  · cases h
  · split at h
    · cases h
    · exact length_parseIP h

theorem length_to4 {ip ip4 : IP} (h : ip.to4 = some ip4) : ip4.length = 4 := by
  unfold IP.to4 at h
  split at h
  · cases h
    assumption
  · split at h <;> cases h
    rename_i h16
    rw [length_drop, h16.1]

theorem string_to4 {ip ip4 : IP} (h : ip.to4 = some ip4) : ip4.string = ip.string := by
  have hlen := length_to4 h
  have hne : ip.length ≠ 0 := by
    intro hzero
    rw [length_eq_zero_iff.mp hzero] at h
    cases h
  have hself : ip4.to4 = some ip4 := by rw [IP.to4, if_pos hlen]
  rw [IP.string, IP.string, if_neg (by omega), if_neg hne, h, hself]

theorem decodeAddr_encodeAddr (host : Bytes) (port : UInt16) (payload : Bytes) (hpos : 1 ≤ host.length)
    (hlen : host.length ≤ 255) : decodeAddr (encodeAddr (text host) port ++ payload) =
      some (((parseIPFast (text host)).map IP.string).getD (text host), port, payload) := by
  unfold encodeAddr
  cases hip : parseIPFast (text host) with
  | some ip =>
    cases hip4 : ip.to4 with
    | some ip4 =>
      simp only [hip4]
      rw [append_assoc, cons_append, decodeAddr_v4 port payload (length_to4 hip4), string_to4 hip4]
      rfl
    | none =>
      simp only [hip4]
      rw [append_assoc, cons_append, decodeAddr_v6 port payload (length_parseIPFast hip)]
      rfl
  | none =>
    simp only
    rw [hostBytes_text, append_assoc, cons_append, cons_append, show (text host).length = host.length from length_map _,
      decodeAddr_name port payload hpos hlen]
    rfl

/-- The host comes back, and the answer is found, exactly if the host is a name or an address as Go prints it.
    -/
theorem address_comes_back_iff (host : Bytes) (port : UInt16) (payload data : Bytes) (hpos : 1 ≤ host.length)
    (hlen : host.length ≤ 255) :
    (decodeAddr (encodeAddr (text host) port ++ payload) = some (text host, port, payload) ∧
        echoKey (text host) port payload data = some (ReplyTarget.key ⟨text host, port⟩)) ↔
      ∀ ip, parseIPFast (text host) = some ip → ip.string = text host := by
  have hdecode := fun rest => decodeAddr_encodeAddr host port rest hpos hlen
  constructor
  · rintro ⟨hback, -⟩ ip hip
    rw [hdecode, hip] at hback
    exact congrArg Prod.fst (Option.some.inj hback)
  · intro hprinted
    have hhost : ((parseIPFast (text host)).map IP.string).getD (text host) = text host := by
      cases hip : parseIPFast (text host) with
      | none => rfl
      | some ip => exact hprinted ip hip
    rw [hhost] at hdecode
    refine ⟨hdecode payload, ?_⟩
    rw [echoKey, hdecode payload, Option.bind_some]
    dsimp only
    rw [hdecode data, Option.map_some]

/-- `fe80::1` begins with a letter and goes as a name. -/
theorem address_comes_back_name :
    decodeAddr (encodeAddr (text [102, 101, 56, 48, 58, 58, 49]) 53 ++ [1]) =
    some (text [102, 101, 56, 48, 58, 58, 49], 53, [1]) ∧
      echoKey (text [102, 101, 56, 48, 58, 58, 49]) 53 [1] [2] =
      some (ReplyTarget.key ⟨text [102, 101, 56, 48, 58, 58, 49], 53⟩) :=
  (address_comes_back_iff [102, 101, 56, 48, 58, 58, 49] 53 [1] [2] (by decide) (by decide)).mpr fun ip hip =>
    by rw [show parseIPFast (text [102, 101, 56, 48, 58, 58, 49]) = none by decide] at hip; cases hip

/-- `2001:DB8::1` comes back in lower case, and the answer finds no target. -/
theorem address_comes_back_lowered :
    decodeAddr (encodeAddr "2001:DB8::1".toList 53 ++ [1]) = some ("2001:db8::1".toList, 53, [1]) ∧
      echoKey "2001:DB8::1".toList 53 [1] [2] = some "[2001:db8::1]:53".toList ∧
      ReplyTarget.key ⟨"2001:DB8::1".toList, 53⟩ = "[2001:DB8::1]:53".toList := by
  decide

/-! ### The scan before `net.ParseIP` -/

theorem mark_of_parseIP (h : parseIP host = some ip) : ∃ c ∈ host, isDecimal c = true ∨ c = ':' := by
  obtain ⟨addr, h, -⟩ := Option.map_eq_some_iff.mp h
  unfold parseAddr at h
  split at h
  · rename_i hfind
    split at h
    · obtain ⟨v4, hv4, -⟩ := Option.map_eq_some_iff.mp h
      cases host with
      | nil => cases hfind
      | cons d host =>
        refine ⟨d, mem_cons_self, .inl (by_contra fun hd => ?_)⟩
        simp [parseIPv4, parseIPv4Fields, hd] at hv4
    · split at h
      · rename_i hcolon
        exact ⟨_, mem_of_find?_eq_some hfind, .inr hcolon⟩
      · cases h
  · cases h

theorem scanHost_iff {digits colon : Bool} (hchar : ∀ c ∈ host, IsAddrChar c)
    (hmark : digits = true ∨ colon = true ∨ ∃ c ∈ host, isDecimal c = true ∨ c = ':') :
    (∃ r, scanHost digits colon host = some r ∧ ¬(r.1 = false ∧ r.2 = false)) ↔
      (colon = false → ∀ c ∈ host.takeWhile (· ≠ ':'), isHex c = true → isDecimal c = true) := by
  induction host generalizing digits colon with
  | nil => simpa [scanHost, imp_iff_not_or] using hmark
  | cons c host ih =>
    obtain ⟨hc, htail⟩ := forall_mem_cons.mp hchar
    unfold scanHost
    by_cases hcolon : c = ':'
    · rw [if_pos hcolon, ih htail (.inr (.inl rfl))]
      simp [hcolon]
    have htake : (c :: host).takeWhile (· ≠ ':') = c :: host.takeWhile (· ≠ ':') := by simp [hcolon]
    rw [if_neg hcolon, htake, forall_mem_cons]
    by_cases hd : isDecimal c = true
    · have hdot : c ≠ '.' := fun h => absurd (h ▸ hd) (by decide)
      rw [if_neg hdot, if_pos hd, ih htail (.inl rfl)]
      simp [hd]
    have hrest : digits = true ∨ colon = true ∨ ∃ c ∈ host, isDecimal c = true ∨ c = ':' := by
      simpa [hd, hcolon] using hmark
    obtain hhex | rfl | hc := hc
    · have hdot : c ≠ '.' := fun h => absurd (h ▸ hhex) (by decide)
      rw [if_neg hdot, if_neg hd, if_pos hhex]
      cases colon with
      | true => simpa using ih htail hrest
      | false => simp [hd, hhex]
    · rw [if_pos rfl, ih htail hrest]
      simp [show isHex '.' = false by decide]
    · exact absurd hc hcolon

/-- The scan changes nothing exactly if no address has a letter before its first colon. -/
theorem parseIPFast_eq_iff (host : List Char) : parseIPFast host = parseIP host ↔
      (parseIP host ≠ none → ∀ c ∈ host.takeWhile (· ≠ ':'), isHex c = true → isDecimal c = true) := by
  cases hip : parseIP host with
  | none =>
    refine iff_of_true ?_ fun h => absurd rfl h
    unfold parseIPFast
    split
    · rfl
    · split
      · rfl
      · exact hip
  | some ip =>
    have hscan := scanHost_iff (isAddrChar_of_parseIP hip) (.inr (.inr (mark_of_parseIP hip)) : false = true ∨
      false = true ∨ _)
    have hfast : parseIPFast host = some ip ↔ ∃ r, scanHost false false host = some r ∧
        ¬(r.1 = false ∧ r.2 = false) := by
      unfold parseIPFast
      cases scanHost false false host with
      | none => simp
      | some r => simp [hip]
    rw [hfast, hscan]
    simp

/-- `fe80::1` is an address, but the scan takes it for a name. -/
theorem parseIPFast_misses : (parseIP "fe80::1".toList).isSome = true ∧ parseIPFast "fe80::1".toList = none := by
  decide

/-! ### The UDP header -/

theorem parseIP_string_ne_none (h : ip.length = 4 ∨ ip.length = 16) : parseIP ip.string ≠ none := by
  cases hip : ip.to4 with
  | some ip4 => simp [IP.string, hip, show ip.length ≠ 0 by omega, parseIP, parseAddr_string4 (length_to4 hip)]
  | none =>
    have h16 : ip.length = 16 := h.resolve_left fun h4 => by simp [IP.to4, h4] at hip
    simp [IP.string, hip, h16, parseIP, parseAddr_string6 h16]

theorem text_hostBytes {s : List Char} (h : ∀ c ∈ s, c.toNat < 256) : text (hostBytes s) = s := by
  rw [text, hostBytes, map_map]
  refine (map_congr_left fun c hc => ?_).trans (map_id s)
  rw [Function.comp_apply, UInt8.toNat_ofNat', Nat.mod_eq_of_lt (h c hc), Char.ofNat_toNat]
  rfl

theorem isAddrChar_lt {c : Char} (h : IsAddrChar c) : c.toNat < 256 := by
  obtain h | rfl | rfl := h
  · simp only [isHex, isDecimal, Bool.or_eq_true, decide_eq_true_eq, Char.le_def, UInt32.le_iff_toNat_le] at h
    have hlast : '9'.val.toNat = 57 ∧ 'F'.val.toNat = 70 ∧ 'f'.val.toNat = 102 := by decide
    show c.val.toNat < 256
    omega
  · decide
  · decide

theorem host_of_parseUDPHeader {data payload : Bytes} {port : UInt16}
    (h : parseUDPHeader data = .ok (host, port, payload)) : ∃ b, host = text b ∧
    (parseIP host = none → b.length ≤ 255) := by
  have hprinted {ip : IP} (hip : ip.length = 4 ∨ ip.length = 16) :
      ∃ b, ip.string = text b ∧ (parseIP ip.string = none → b.length ≤ 255) := by
    obtain ⟨x, hx⟩ := Option.ne_none_iff_exists'.mp (parseIP_string_ne_none hip)
    refine ⟨hostBytes ip.string, (text_hostBytes fun c hc => isAddrChar_lt (isAddrChar_of_parseIP hx c hc)).symm, ?_⟩
    intro hnone
    exact absurd (hx.symm.trans hnone) (by simp)
  unfold parseUDPHeader at h
  split at h
  · split at h <;> cases h
    exact hprinted (.inl (by rw [length_take]; omega))
  · split at h <;> cases h
    exact hprinted (.inr (by rw [length_take]; omega))
  · rename_i dl rest
    split at h <;> cases h
    have hdl := dl.toNat_lt
    exact ⟨_, rfl, fun _ => (length_take_le _ _).trans (by omega)⟩
  all_goals cases h

theorem parseUDPHeader_buildUDPReply (host : Bytes) (port : UInt16) (payload : Bytes)
    (hlen : parseIP (text host) = none → host.length ≤ 255) :
    parseUDPHeader (buildUDPReply (text host) port payload) =
      .ok (((parseIP (text host)).map IP.string).getD (text host), port, payload) := by
  unfold buildUDPReply replyHeader
  rw [hostBytes_text]
  cases hip : parseIP (text host) with
  | some ip =>
    simp only [show parseIP (host.map fun b => Char.ofNat b.toNat) = some ip from hip]
    cases hip4 : ip.to4 with
    | some ip4 =>
      obtain ⟨htake, hport, hrest⟩ := drop_port port payload (length_to4 hip4)
      simp only [append_assoc, cons_append, nil_append, parseUDPHeader]
      rw [if_neg, htake, hport, hrest, ofNat_get_port, string_to4 hip4]
      · rfl
      · rw [length_append, length_append, length_to4 hip4, length_putUint16]
        omega
    | none =>
      obtain ⟨htake, hport, hrest⟩ := drop_port port payload (length_parseIP hip)
      simp only [append_assoc, cons_append, nil_append, parseUDPHeader]
      rw [if_neg, htake, hport, hrest, ofNat_get_port]
      · rfl
      · rw [length_append, length_append, length_parseIP hip, length_putUint16]
        omega
  | none =>
    simp only [show parseIP (host.map fun b => Char.ofNat b.toNat) = none from hip]
    have hbyte : (UInt8.ofNat host.length).toNat = host.length := by
      rw [UInt8.toNat_ofNat']
      have := hlen hip
      omega
    obtain ⟨htake, hport, hrest⟩ := drop_port port payload (rfl : host.length = host.length)
    simp only [append_assoc, cons_append, nil_append, parseUDPHeader, hbyte]
    rw [if_neg, htake, hport, hrest, ofNat_get_port]
    · rfl
    · rw [length_append, length_append, length_putUint16]
      omega

/-- The reply is from the host that was addressed exactly if that is a name or an address as Go prints it. -/
theorem udp_reply_comes_back_iff {data payload : Bytes} {host : List Char} {port : UInt16}
    (h : parseUDPHeader data = .ok (host, port, payload)) :
    parseUDPHeader (buildUDPReply host port payload) = .ok (host, port, payload) ↔
      ∀ ip, parseIP host = some ip → ip.string = host := by
  obtain ⟨b, rfl, hlen⟩ := host_of_parseUDPHeader h
  rw [parseUDPHeader_buildUDPReply b port payload hlen]
  cases parseIP (text b) <;> simp

theorem udp_reply_comes_back_name : parseUDPHeader (buildUDPReply ['a'] 53 [9]) = .ok (['a'], 53, [9]) := by
  have h : parseUDPHeader [0, 0, 0, 3, 1, 97, 0, 53, 9] = .ok (['a'], 53, [9]) := by decide
  exact (udp_reply_comes_back_iff h).mpr fun ip hip => absurd hip (by rw [show parseIP ['a'] = none by decide]; nofun)

/-- A client that addresses `0:0::1` by name gets a reply from `::1`. -/
theorem udp_reply_from_other_text :
    parseUDPHeader ([0, 0, 0, 3, 6] ++ hostBytes "0:0::1".toList ++ [0, 53, 9]) = .ok ("0:0::1".toList, 53, [9]) ∧
      parseUDPHeader (buildUDPReply "0:0::1".toList 53 [9]) = .ok ("::1".toList, 53, [9]) := by
  decide +kernel

end Whispera
