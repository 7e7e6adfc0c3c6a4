import WageFix.Wire.Agreement
import Mathlib.Data.Nat.Digits.Lemmas

namespace WageFix.Wire

open Json

def hexValue (upper : Bool) (d : ℕ) : ℕ :=
  if d < 10 then 0x30 + d else if upper then 0x41 + (d - 10) else 0x61 + (d - 10)

theorem codePoint_lt (n : ℕ) : n % 0x110000 < 0x110000 := Nat.mod_lt n (by decide)

def hexChar (upper : Bool) (d : ℕ) : CodePoint := ⟨hexValue upper d % 0x110000, codePoint_lt _⟩

-- The forty digits of an address, the highest first.
def addressDigits (a : Address) : List ℕ := (Nat.digitsAppend 16 40 a.val).reverse

-- An address written in any mixture of letter cases, with 0x before it or not.
def addressText (prefixed : Bool) (upper : ℕ → Bool) (a : Address) : Text :=
  (if prefixed then text "0x" else []) ++ (addressDigits a).mapIdx fun i d => hexChar (upper i) d

section Digits

variable {t : Text} {a : Address} {digits : List ℕ} {c : CodePoint} {d : ℕ}

theorem hexDigit_hexChar (upper : Bool) (h : d < 16) : hexDigit (hexChar upper d) = some d := by
  have hall : ∀ (upper : Bool) (d : Fin 16), hexDigit (hexChar upper d) = some d.val := by
    decide +kernel
  exact hall upper ⟨d, h⟩

theorem hexDigit_lt (h : hexDigit c = some d) : d < 16 := by
  unfold hexDigit at h
  split_ifs at h
  · obtain rfl := Option.some.inj h
    omega
  · obtain rfl := Option.some.inj h
    omega
  · obtain rfl := Option.some.inj h
    omega

theorem hexChar_val (upper : Bool) (h : d < 16) : (hexChar upper d).val = hexValue upper d := by
  apply Nat.mod_eq_of_lt
  unfold hexValue
  split_ifs <;> omega

theorem exists_hexChar (h : hexDigit c = some d) : ∃ upper, c = hexChar upper d := by
  have hd := hexDigit_lt h
  unfold hexDigit at h
  split_ifs at h with hdigit hupper hlower
  · obtain rfl := Option.some.inj h
    refine ⟨false, Fin.ext ?_⟩
    rw [hexChar_val false hd, hexValue, if_pos (by omega)]
    omega
  · obtain rfl := Option.some.inj h
    refine ⟨true, Fin.ext ?_⟩
    rw [hexChar_val true hd, hexValue, if_neg (by omega), if_pos rfl]
    omega
  · obtain rfl := Option.some.inj h
    refine ⟨false, Fin.ext ?_⟩
    rw [hexChar_val false hd, hexValue, if_neg (by omega), if_neg (by simp)]
    omega

theorem mapM_hexDigit_lt (h : t.mapM hexDigit = some digits) : ∀ d ∈ digits, d < 16 := by
  induction t generalizing digits with
  | nil =>
      obtain rfl := Option.some.inj h
      simp
  | cons c t ih =>
      obtain ⟨x, xs, hx, hxs, rfl⟩ := mapM_cons_eq_some.mp h
      exact List.forall_mem_cons.mpr ⟨hexDigit_lt hx, ih hxs⟩

-- The texts that read as some digits are their spellings.
theorem mapM_hexDigit_eq_some (hdigits : ∀ d ∈ digits, d < 16) :
    t.mapM hexDigit = some digits ↔
      ∃ upper : ℕ → Bool, t = digits.mapIdx fun i d => hexChar (upper i) d := by
  induction digits generalizing t with
  | nil =>
      cases t with
      | nil => simp
      | cons c t =>
          refine iff_of_false (fun h => ?_) (by simp)
          obtain ⟨x, xs, -, -, heq⟩ := mapM_cons_eq_some.mp h
          exact absurd heq (by simp)
  | cons d digits ih =>
      obtain ⟨hd, hdigits⟩ := List.forall_mem_cons.mp hdigits
      simp only [List.mapIdx_cons]
      constructor
      · intro h
        cases t with
        | nil => simp at h
        | cons c t =>
            obtain ⟨x, xs, hx, hxs, heq⟩ := mapM_cons_eq_some.mp h
            obtain ⟨rfl, rfl⟩ := List.cons.inj heq
            obtain ⟨upper, rfl⟩ := exists_hexChar hx
            obtain ⟨later, rfl⟩ := (ih hdigits).mp hxs
            exact ⟨fun i => i.casesOn upper later, rfl⟩
      · rintro ⟨upper, rfl⟩
        have hrest := (ih hdigits).mpr ⟨fun i => upper (i + 1), rfl⟩
        exact mapM_cons_eq_some.mpr ⟨d, digits, hexDigit_hexChar _ hd, hrest, rfl⟩

theorem addressDigits_spec (a : Address) :
    (addressDigits a).length = 40 ∧ (∀ d ∈ addressDigits a, d < 16) ∧
      Nat.ofDigits 16 (addressDigits a).reverse = a.val := by
  have ha : a.val < 16 ^ 40 := a.isLt
  obtain ⟨hlength, hlt⟩ := Nat.mapsTo_digitsAppend (by decide : 1 < 16) 40 ha
  have hvalue := (Nat.setInvOn_digitsAppend_ofDigits (by decide : 1 < 16) 40).2 ha
  refine ⟨?_, fun d hd => hlt d (List.mem_reverse.mp hd), ?_⟩
  · rw [addressDigits, List.length_reverse, hlength]
  · rw [addressDigits, List.reverse_reverse, hvalue]

theorem addressOfDigits_eq_some (hdigits : ∀ d ∈ digits, d < 16) :
    addressOfDigits digits = some a ↔ digits = addressDigits a := by
  constructor
  · intro h
    unfold addressOfDigits at h
    split_ifs at h with hlength
    have hrange : digits.reverse.length = 40 ∧ ∀ d ∈ digits.reverse, d < 16 :=
      ⟨by rw [List.length_reverse, hlength], fun d hd => hdigits d (List.mem_reverse.mp hd)⟩
    have hlt : Nat.ofDigits 16 digits.reverse < 16 ^ 40 :=
      Nat.mapsTo_ofDigits (by decide : 1 < 16) 40 hrange
    have hvalue : Nat.ofDigits 16 digits.reverse = a.val := by
      rw [← congrArg Fin.val (Option.some.inj h), Fin.val_ofNat]
      exact (Nat.mod_eq_of_lt hlt).symm
    have hback := (Nat.setInvOn_digitsAppend_ofDigits (by decide : 1 < 16) 40).1 hrange
    rw [hvalue] at hback
    rw [addressDigits, hback, List.reverse_reverse]
  · rintro rfl
    obtain ⟨hlength, -, hvalue⟩ := addressDigits_spec a
    rw [addressOfDigits, if_pos hlength, hvalue]
    exact congrArg some (Fin.ext (Nat.mod_eq_of_lt a.isLt))

theorem addressOfHex_eq_some : addressOfHex t = some a ↔
    ∃ upper : ℕ → Bool, t = (addressDigits a).mapIdx fun i d => hexChar (upper i) d := by
  rw [← mapM_hexDigit_eq_some (addressDigits_spec a).2.1, addressOfHex, Option.bind_eq_some_iff]
  constructor
  · rintro ⟨digits, hdigits, ha⟩
    rwa [← (addressOfDigits_eq_some (mapM_hexDigit_lt hdigits)).mp ha]
  · intro h
    exact ⟨addressDigits a, h, (addressOfDigits_eq_some (addressDigits_spec a).2.1).mpr rfl⟩

theorem withoutPrefix_of_hex (h : addressOfHex t = some a) : withoutPrefix (text "0x") t = t := by
  refine if_neg ?_
  rintro ⟨rest, rfl⟩
  have hx : Fin.ofNat 0x110000 0x78 ∈ text "0x" ++ rest :=
    List.mem_append_left _ (by decide +kernel)
  exact isHex_of_addressOfHex h hx (by decide +kernel)

theorem withoutPrefix_addressText (prefixed : Bool) (h : addressOfHex t = some a) :
    withoutPrefix (text "0x") ((if prefixed then text "0x" else []) ++ t) = t := by
  cases prefixed with
  | true => exact (if_pos (List.prefix_append _ _)).trans List.drop_left
  | false => exact withoutPrefix_of_hex h

theorem isAddressChar_addressText (prefixed : Bool) (h : addressOfHex t = some a) :
    ∀ c ∈ (if prefixed then text "0x" else []) ++ t, IsAddressChar c := by
  intro c hc
  rcases List.mem_append.mp hc with hc | hc
  · cases prefixed with
    | true => exact isAddressChar_of_mem_prefix hc
    | false => exact absurd hc List.not_mem_nil
  · exact Or.inr (isHex_of_addressOfHex h hc)

theorem not_upper_of_isAddressChar (h : ∀ c ∈ t, IsAddressChar c) : ¬ text "0X" <+: t := by
  rintro ⟨rest, rfl⟩
  have hx : IsAddressChar (Fin.ofNat 0x110000 0x58) :=
    h _ (List.mem_append_left _ (by decide +kernel))
  exact hx.elim (by decide +kernel) (fun hhex => hhex (by decide +kernel))

-- The texts in which both bridges read an address are its spellings.
theorem address_spelled_iff :
    Rust.parseAddress t = some a ∧ Python.toChecksumAddress (.str t) = some a ↔
      ∃ prefixed upper, t = addressText prefixed upper a := by
  constructor
  · rintro ⟨hrust, hpython⟩
    rw [checksum_eq (not_upper_of_parseAddress hrust)] at hpython
    obtain ⟨upper, hupper⟩ := addressOfHex_eq_some.mp hpython
    unfold withoutPrefix at hupper
    split_ifs at hupper with hprefix
    · obtain ⟨rest, rfl⟩ := hprefix
      rw [List.drop_left] at hupper
      exact ⟨true, upper, congrArg (text "0x" ++ ·) hupper⟩
    · exact ⟨false, upper, hupper⟩
  · rintro ⟨prefixed, upper, rfl⟩
    unfold addressText
    generalize hspelling : ((addressDigits a).mapIdx fun i d => hexChar (upper i) d) = spelling
    have hhex := addressOfHex_eq_some.mpr ⟨upper, hspelling.symm⟩
    have hchars := isAddressChar_addressText prefixed hhex
    have hblank := fun c hc => not_isBlank_of_isAddressChar (hchars c hc)
    rw [parseAddress_eq hblank, checksum_eq (not_upper_of_isAddressChar hchars),
      withoutPrefix_addressText prefixed hhex]
    exact ⟨hhex, hhex⟩

end Digits

section Messages

variable {n : ℕ}

theorem isU64_iff {z : Number} : Rust.IsU64 z ↔ ∃ n, z = .ofNat n ∧ n < 2 ^ 64 := by
  constructor
  · obtain ⟨negative, integer, fraction, exponent⟩ := z
    rintro ⟨⟨rfl, rfl⟩, rfl, hlt⟩
    exact ⟨integer, rfl, hlt⟩
  · rintro ⟨n, rfl, hlt⟩
    exact ⟨⟨rfl, rfl⟩, rfl, hlt⟩

theorem amount_of_u64 (hn : n < 2 ^ 64) :
    (BitVec.ofNat 64 n).setWidth 256 = BitVec.ofNat 256 n := by
  apply BitVec.eq_of_toNat_eq
  rw [BitVec.toNat_setWidth, BitVec.toNat_ofNat, BitVec.toNat_ofNat, Nat.mod_eq_of_lt hn]

end Messages

-- The messages that both bridges issue as an address and an amount: an object
-- that the interpreter loads, with each field once, the address in one of its
-- spellings and the amount as its decimal digits.
theorem both_decode_iff (limits : Python.Limits) (v : Value) (i : Issue) :
    decodeRust v = some i ∧ decodePython limits v = some i ↔
      ∃ members prefixed upper n, v = .obj members ∧ Python.Loads limits v ∧
        (∀ m ∈ members, m.1.WellFormed) ∧
        valuesAt (text "user") members = [.str (addressText prefixed upper i.to_)] ∧
        valuesAt (text "amount") members = [.num (.ofNat n)] ∧
        n < 2 ^ 64 ∧ i.amount = BitVec.ofNat 256 n := by
  constructor
  · rintro ⟨hrust, hpython⟩
    obtain ⟨members, rfl⟩ := exists_obj_of_decodePython hpython
    obtain ⟨event, to_, hevent, hto, rfl⟩ := decodeRust_eq_some.mp hrust
    obtain ⟨hkeys, user, amount, huser, hamount, hfields⟩ := deserialize_obj_eq_some.mp hevent
    obtain ⟨t, z, rfl, -, rfl, hz, rfl⟩ := wageEvent_eq_some.mp hfields
    obtain ⟨n, rfl, hn⟩ := isU64_iff.mp hz
    have hchecksum := checksum_of_decodePython hpython huser
    obtain ⟨prefixed, upper, rfl⟩ := address_spelled_iff.mp ⟨hto, hchecksum⟩
    exact ⟨members, prefixed, upper, n, rfl, (decodePython_obj_eq_some.mp hpython).1, hkeys, huser,
      hamount, hn, amount_of_u64 hn⟩
  · rintro ⟨members, prefixed, upper, n, rfl, hloads, hkeys, huser, hamount, hn, hi⟩
    have hz : Rust.IsU64 (.ofNat n) := isU64_iff.mpr ⟨n, rfl, hn⟩
    obtain ⟨hrust, hpython⟩ := address_spelled_iff.mpr ⟨prefixed, upper, rfl⟩
    have htokens := toUint256_of_isU64 limits hz
    obtain ⟨tokens, htoInt, hamount256⟩ := Option.bind_eq_some_iff.mp htokens
    have hvalue : (BitVec.ofNat 64 (Number.ofNat n).integer).setWidth 256 = i.amount :=
      (amount_of_u64 hn).trans hi.symm
    rw [hvalue] at hamount256
    have hdecoded : decodePython limits (.obj members) = some i := by
      apply decodePython_obj_eq_some.mpr
      exact ⟨hloads, _, _, tokens, by rw [huser]; rfl, hpython, by rw [hamount]; rfl, htoInt,
        hamount256⟩
    have hforRust : ForRust (.obj members) :=
      ⟨members, _, _, rfl, hkeys, huser, not_upper_of_parseAddress hrust, hamount, hz⟩
    exact ⟨decodeRust_of_decodePython hdecoded hforRust, hdecoded⟩

end WageFix.Wire
