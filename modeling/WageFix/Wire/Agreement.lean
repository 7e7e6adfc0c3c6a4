import WageFix.Wire

namespace WageFix.Wire

open Json

section Address

variable {t : Text} {a : Address} {c : CodePoint}

theorem isHex_of_addressOfHex (h : addressOfHex t = some a) (hc : c ∈ t) : hexDigit c ≠ none := by
  obtain ⟨digits, hdigits, -⟩ := Option.bind_eq_some_iff.mp h
  clear h
  induction t generalizing digits with
  | nil => simp at hc
  | cons d t ih =>
      obtain ⟨x, xs, hx, hxs, -⟩ := mapM_cons_eq_some.mp hdigits
      rcases List.mem_cons.mp hc with rfl | hc
      · rw [hx]
        exact Option.some_ne_none x
      · exact ih hc xs hxs

def IsAddressChar (c : CodePoint) : Prop := c.val = 0x78 ∨ hexDigit c ≠ none

theorem isAddressChar_range (h : IsAddressChar c) : 0x30 ≤ c.val ∧ c.val ≤ 0x78 := by
  rcases h with h | h
  · omega
  · by_contra hc
    apply h
    unfold hexDigit
    rw [if_neg (by omega), if_neg (by omega), if_neg (by omega)]

theorem not_isBlank_of_isAddressChar (h : IsAddressChar c) : ¬ Rust.IsBlank c := by
  have hrange := isAddressChar_range h
  unfold Rust.IsBlank
  omega

theorem not_isSurrogate_of_isAddressChar (h : IsAddressChar c) : ¬ c.IsSurrogate := by
  have hrange := isAddressChar_range h
  unfold CodePoint.IsSurrogate
  omega

theorem mem_of_mem_withoutPrefix {p : Text} (h : c ∈ withoutPrefix p t) : c ∈ t := by
  unfold withoutPrefix at h
  split_ifs at h
  · exact List.mem_of_mem_drop h
  · exact h

theorem mem_or_mem_withoutPrefix (p : Text) (h : c ∈ t) : c ∈ p ∨ c ∈ withoutPrefix p t := by
  unfold withoutPrefix
  split_ifs with hp
  · obtain ⟨rest, rfl⟩ := hp
    rw [List.drop_left]
    exact List.mem_append.mp h
  · exact Or.inr h

theorem isAddressChar_of_mem_prefix (h : c ∈ text "0x") : IsAddressChar c := by
  have htext : text "0x" = [Fin.ofNat 0x110000 0x30, Fin.ofNat 0x110000 0x78] := by
    decide +kernel
  rw [htext] at h
  rcases List.mem_cons.mp h with rfl | h
  · exact Or.inr (by decide +kernel)
  · obtain rfl := List.mem_singleton.mp h
    exact Or.inl rfl

theorem checksum_eq (h : ¬ text "0X" <+: t) :
    Python.toChecksumAddress (.str t) = addressOfHex (withoutPrefix (text "0x") t) := by
  rw [Python.toChecksumAddress, Python.remove0xPrefix, if_neg h]

theorem parseAddress_eq (h : ∀ c ∈ t, ¬ Rust.IsBlank c) :
    Rust.parseAddress t = addressOfHex (withoutPrefix (text "0x") t) := by
  have hfilter : (withoutPrefix (text "0x") t).filter (fun c => ¬ Rust.IsBlank c) =
      withoutPrefix (text "0x") t :=
    List.filter_eq_self.mpr fun c hc => decide_eq_true (h c (mem_of_mem_withoutPrefix hc))
  rw [Rust.parseAddress, hfilter]

theorem isAddressChar_of_checksum (h : Python.toChecksumAddress (.str t) = some a)
    (hupper : ¬ text "0X" <+: t) (hc : c ∈ t) : IsAddressChar c := by
  rw [checksum_eq hupper] at h
  rcases mem_or_mem_withoutPrefix (text "0x") hc with hc | hc
  · exact isAddressChar_of_mem_prefix hc
  · exact Or.inr (isHex_of_addressOfHex h hc)

theorem not_upper_of_parseAddress (h : Rust.parseAddress t = some a) : ¬ text "0X" <+: t := by
  rintro ⟨rest, rfl⟩
  have hlower : ¬ text "0x" <+: text "0X" ++ rest := by
    rintro ⟨rest', he⟩
    have hlength : (text "0x").length = (text "0X").length := by decide +kernel
    exact absurd (List.append_inj_left he hlength) (by decide +kernel)
  have hx : Fin.ofNat 0x110000 0x58 ∈
      (withoutPrefix (text "0x") (text "0X" ++ rest)).filter (fun c => ¬ Rust.IsBlank c) := by
    rw [withoutPrefix, if_neg hlower]
    apply List.mem_filter.mpr
    exact ⟨List.mem_append_left _ (by decide +kernel), by decide +kernel⟩
  exact isHex_of_addressOfHex h hx (by decide +kernel)

-- Where the text has no blanks and not that prefix, the two readings of an
-- address are one.
theorem parseAddress_eq_checksum (hblank : ∀ c ∈ t, ¬ Rust.IsBlank c)
    (hupper : ¬ text "0X" <+: t) :
    Rust.parseAddress t = Python.toChecksumAddress (.str t) := by
  rw [parseAddress_eq hblank, checksum_eq hupper]

end Address

section Fields

variable {v user amount : Value} {event : Rust.WageEvent} {members : List (Text × Value)}

theorem readString_eq_some {t : Text} :
    Rust.readString v = some t ↔ v = .str t ∧ t.WellFormed := by
  cases v with
  | str u =>
      simp only [Rust.readString, Option.ite_none_right_eq_some, Option.some.injEq, Value.str.injEq]
      constructor
      · rintro ⟨hu, rfl⟩
        exact ⟨rfl, hu⟩
      · rintro ⟨rfl, hu⟩
        exact ⟨hu, rfl⟩
  | _ => simp [Rust.readString]

theorem readU64_eq_some {z : BitVec 64} :
    Rust.readU64 v = some z ↔ ∃ n, v = .num n ∧ Rust.IsU64 n ∧ z = BitVec.ofNat 64 n.integer := by
  cases v with
  | num n =>
      simp only [Rust.readU64, Option.ite_none_right_eq_some, Option.some.injEq, Value.num.injEq]
      constructor
      · rintro ⟨hn, rfl⟩
        exact ⟨n, rfl, hn, rfl⟩
      · rintro ⟨m, rfl, hn, rfl⟩
        exact ⟨hn, rfl⟩
  | _ => simp [Rust.readU64]

theorem wageEvent_eq_some : Rust.wageEvent user amount = some event ↔
    ∃ t n, user = .str t ∧ t.WellFormed ∧ amount = .num n ∧ Rust.IsU64 n ∧
      event = ⟨t, BitVec.ofNat 64 n.integer⟩ := by
  simp only [Rust.wageEvent, bind, Option.bind_eq_some_iff, readString_eq_some, readU64_eq_some,
    pure, Option.some.injEq]
  constructor
  · rintro ⟨t, ⟨rfl, ht⟩, z, ⟨n, rfl, hn, rfl⟩, rfl⟩
    exact ⟨t, n, rfl, ht, rfl, hn, rfl⟩
  · rintro ⟨t, n, rfl, ht, rfl, hn, rfl⟩
    exact ⟨t, ⟨rfl, ht⟩, _, ⟨n, rfl, hn, rfl⟩, rfl⟩

theorem deserialize_obj_eq_some : Rust.WageEvent.deserialize (.obj members) = some event ↔
    (∀ m ∈ members, m.1.WellFormed) ∧ ∃ user amount, valuesAt (text "user") members = [user] ∧
      valuesAt (text "amount") members = [amount] ∧ Rust.wageEvent user amount = some event := by
  rw [Rust.WageEvent.deserialize]
  constructor
  · intro h
    split_ifs at h with hkeys
    split at h
    · rename_i user amount huser hamount
      exact ⟨hkeys, user, amount, huser, hamount, h⟩
    · exact absurd h (by simp)
  · rintro ⟨hkeys, user, amount, huser, hamount, h⟩
    rw [if_pos hkeys, huser, hamount]
    exact h

theorem decodeRust_eq_some {i : Issue} : decodeRust v = some i ↔
    ∃ event to_, Rust.WageEvent.deserialize v = some event ∧
      Rust.parseAddress event.user = some to_ ∧ ⟨to_, event.amount.setWidth 256⟩ = i := by
  simp only [decodeRust, bind, Option.bind_eq_some_iff, pure, Option.some.injEq]
  constructor
  · rintro ⟨event, hevent, to_, hto, hi⟩
    exact ⟨event, to_, hevent, hto, hi⟩
  · rintro ⟨event, to_, hevent, hto, hi⟩
    exact ⟨event, hevent, to_, hto, hi⟩

theorem decodePython_obj_eq_some {limits : Python.Limits} {i : Issue} :
    decodePython limits (.obj members) = some i ↔
      Python.Loads limits (.obj members) ∧ ∃ user amount tokens,
        (valuesAt (text "user") members).getLast? = some user ∧
        Python.toChecksumAddress user = some i.to_ ∧
        (valuesAt (text "amount") members).getLast? = some amount ∧
        Python.toInt limits amount = some tokens ∧
        Python.toUint256 tokens = some i.amount := by
  unfold decodePython
  split_ifs with hloads
  · simp only [hloads, true_and, bind, Option.bind_eq_some_iff, pure, Option.some.injEq]
    constructor
    · rintro ⟨user, huser, to_, hto, amount, hamount, tokens, htokens, z, hz, rfl⟩
      exact ⟨user, amount, tokens, huser, hto, hamount, htokens, hz⟩
    · rintro ⟨user, amount, tokens, huser, hto, hamount, htokens, hz⟩
      exact ⟨user, huser, i.to_, hto, amount, hamount, tokens, htokens, i.amount, hz, rfl⟩
  · simp [hloads]

theorem toUint256_of_isU64 (limits : Python.Limits) {n : Number} (h : Rust.IsU64 n) :
    (Python.toInt limits (.num n)).bind Python.toUint256 =
      some ((BitVec.ofNat 64 n.integer).setWidth 256) := by
  obtain ⟨hinteger, hsign, hlt⟩ := h
  have htoInt : n.toInt = n.integer := by rw [Number.toInt, hsign]; rfl
  have hrange : (0 : ℤ) ≤ n.integer ∧ (n.integer : ℤ) < 2 ^ 256 := by omega
  rw [Python.toInt, if_pos hinteger, htoInt, Option.bind_some, Python.toUint256, if_pos hrange]
  apply congrArg some
  apply BitVec.eq_of_toNat_eq
  rw [BitVec.ofInt_natCast, BitVec.toNat_setWidth, BitVec.toNat_ofNat, BitVec.toNat_ofNat,
    Nat.mod_eq_of_lt hlt]

end Fields

-- What the consumer asks of a message that the listener reads: an object that
-- the interpreter loads, and an address in one piece.
def ForPython (limits : Python.Limits) (v : Value) : Prop :=
  Python.Loads limits v ∧ ∃ members, v = .obj members ∧
    ∀ t, .str t ∈ valuesAt (text "user") members → ∀ c ∈ t, ¬ Rust.IsBlank c

-- What the listener asks of a message that the consumer reads: an object whose
-- keys are proper text and whose two fields stand there once, the address as
-- text that does not begin with 0X, the amount as an unsigned 64-bit integer.
def ForRust (v : Value) : Prop :=
  ∃ members t n, v = .obj members ∧ (∀ m ∈ members, m.1.WellFormed) ∧
    valuesAt (text "user") members = [.str t] ∧ ¬ text "0X" <+: t ∧
    valuesAt (text "amount") members = [.num n] ∧ Rust.IsU64 n

section Decoders

variable {limits : Python.Limits} {v : Value} {members : List (Text × Value)} {i j : Issue}

theorem exists_obj_of_decodePython (h : decodePython limits v = some i) :
    ∃ members, v = .obj members := by
  unfold decodePython at h
  split_ifs at h
  cases v with
  | obj members => exact ⟨members, rfl⟩
  | _ => exact absurd h (by simp)

theorem forRust_of_decodeRust (h : decodeRust (.obj members) = some i) :
    ForRust (.obj members) := by
  obtain ⟨event, to_, hevent, hto, -⟩ := decodeRust_eq_some.mp h
  obtain ⟨hkeys, user, amount, huser, hamount, hfields⟩ := deserialize_obj_eq_some.mp hevent
  obtain ⟨t, n, rfl, -, rfl, hn, rfl⟩ := wageEvent_eq_some.mp hfields
  exact ⟨members, t, n, rfl, hkeys, huser, not_upper_of_parseAddress hto, hamount, hn⟩

theorem checksum_of_decodePython {t : Text} (h : decodePython limits (.obj members) = some i)
    (huser : valuesAt (text "user") members = [.str t]) :
    Python.toChecksumAddress (.str t) = some i.to_ := by
  obtain ⟨-, user, -, -, hlast, hto, -⟩ := decodePython_obj_eq_some.mp h
  rwa [getLast?_of_eq_singleton huser hlast] at hto

theorem decodeRust_of_decodePython (h : decodePython limits v = some i) (hv : ForRust v) :
    decodeRust v = some i := by
  obtain ⟨members, t, n, rfl, hkeys, huser, hupper, hamount, hn⟩ := hv
  have hto := checksum_of_decodePython h huser
  have hchar : ∀ c ∈ t, IsAddressChar c := fun c hc => isAddressChar_of_checksum hto hupper hc
  obtain ⟨-, -, amount, tokens, -, -, hlast, htokens, hz⟩ := decodePython_obj_eq_some.mp h
  obtain rfl := getLast?_of_eq_singleton hamount hlast
  have hsame := toUint256_of_isU64 limits hn
  rw [htokens, Option.bind_some, hz] at hsame
  have hwell : t.WellFormed := fun c hc => not_isSurrogate_of_isAddressChar (hchar c hc)
  have hevent := wageEvent_eq_some.mpr ⟨t, n, rfl, hwell, rfl, hn, rfl⟩
  apply decodeRust_eq_some.mpr
  refine ⟨⟨t, BitVec.ofNat 64 n.integer⟩, i.to_, ?_, ?_, ?_⟩
  · exact deserialize_obj_eq_some.mpr ⟨hkeys, _, _, huser, hamount, hevent⟩
  · rw [← hto]
    exact parseAddress_eq_checksum (fun c hc => not_isBlank_of_isAddressChar (hchar c hc)) hupper
  · rw [← Option.some.inj hsame]

theorem decodePython_of_decodeRust (h : decodeRust v = some i) (hv : ForPython limits v) :
    decodePython limits v = some i := by
  obtain ⟨hloads, members, rfl, hblank⟩ := hv
  obtain ⟨event, to_, hevent, hto, rfl⟩ := decodeRust_eq_some.mp h
  obtain ⟨hkeys, user, amount, huser, hamount, hfields⟩ := deserialize_obj_eq_some.mp hevent
  obtain ⟨t, n, rfl, -, rfl, hn, rfl⟩ := wageEvent_eq_some.mp hfields
  have hnone : ∀ c ∈ t, ¬ Rust.IsBlank c := hblank t (by rw [huser]; exact List.mem_singleton_self _)
  have hsame := parseAddress_eq_checksum hnone (not_upper_of_parseAddress hto)
  obtain ⟨tokens, htokens, hz⟩ := Option.bind_eq_some_iff.mp (toUint256_of_isU64 limits hn)
  apply decodePython_obj_eq_some.mpr
  refine ⟨hloads, .str t, .num n, tokens, ?_, ?_, ?_, htokens, hz⟩
  · rw [huser]
    rfl
  · rw [← hsame]
    exact hto
  · rw [hamount]
    rfl

theorem forPython_of_decodePython (h : decodePython limits v = some i) (hv : ForRust v) :
    ForPython limits v := by
  obtain ⟨members, t, n, rfl, -, huser, hupper, -, -⟩ := hv
  have hto := checksum_of_decodePython h huser
  refine ⟨(decodePython_obj_eq_some.mp h).1, members, rfl, fun u hu c hc => ?_⟩
  rw [huser] at hu
  obtain rfl := Value.str.inj (List.mem_singleton.mp hu)
  exact not_isBlank_of_isAddressChar (isAddressChar_of_checksum hto hupper hc)

theorem forRust_of_both (h : decodeRust v = some i) (h' : decodePython limits v = some j) :
    ForRust v := by
  obtain ⟨members, rfl⟩ := exists_obj_of_decodePython h'
  exact forRust_of_decodeRust h

end Decoders

-- No message makes the two bridges issue differently. One of them drops what
-- the other issues exactly where the message lacks what that one asks for.
theorem decoders_agree_iff (limits : Python.Limits) (v : Value) :
    (decodeRust v = decodePython limits v ↔
      (decodeRust v ≠ none → ForPython limits v) ∧ (decodePython limits v ≠ none → ForRust v)) ∧
      ∀ i j, decodeRust v = some i → decodePython limits v = some j → i = j := by
  have hboth : ∀ i j, decodeRust v = some i → decodePython limits v = some j → i = j := by
    intro i j hi hj
    have hsame := decodeRust_of_decodePython hj (forRust_of_both hi hj)
    rw [hi] at hsame
    exact Option.some.inj hsame
  refine ⟨?_, hboth⟩
  constructor
  · intro heq
    constructor
    · intro hne
      obtain ⟨i, hi⟩ := Option.ne_none_iff_exists'.mp hne
      have hj := heq ▸ hi
      exact forPython_of_decodePython hj (forRust_of_both hi hj)
    · intro hne
      obtain ⟨j, hj⟩ := Option.ne_none_iff_exists'.mp hne
      exact forRust_of_both (heq ▸ hj) hj
  · rintro ⟨hpython, hrust⟩
    cases hi : decodeRust v with
    | some i => exact (decodePython_of_decodeRust hi (hpython (by simp [hi]))).symm
    | none =>
        cases hj : decodePython limits v with
        | none => rfl
        | some j =>
            have hsame := decodeRust_of_decodePython hj (hrust (by simp [hj]))
            exact absurd (hi.symm.trans hsame) (by simp)

-- A wage of one and a half is issued as one, and by the consumer alone.
theorem fraction_decoded_by_python_only :
    ¬ ∀ v, decodeRust v = decodePython ⟨1000, 4300⟩ v := by
  intro h
  have hv := h (wageMessage "0x00000000000000000000000000000000000000Ab" ⟨false, 1, [5], none⟩)
  exact absurd hv (by decide +kernel)

end WageFix.Wire
