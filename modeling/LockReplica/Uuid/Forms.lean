import LockReplica.Uuid.Text

/-!
# The texts of an identifier

An identifier is read from the texts that are one of its four forms, up to the case of letters, and from no others
(`ofText?_eq_some_iff`). Digits mean their value in either case, so a reader sees a text as its lower-case form
(`Hex.bytes?_eq_some_iff`); hyphens, braces and the scheme stand where the form has them. No text is of two forms, since
the lengths of the forms differ.
-/

namespace LockReplica

namespace Hex

/-! ## Digits of either case -/

/-- What holds of the ASCII characters one by one and of the others at once holds of all. -/
@[elab_as_elim]
theorem ascii_cases {motive : Char → Prop} (c : Char) (ascii : ∀ n < 128, motive (Char.ofNat n))
    (other : ∀ c, 128 ≤ c.toNat → motive c) : motive c := by
  rcases Nat.lt_or_ge c.toNat 128 with h | h
  · simpa using ascii c.toNat h
  · exact other c h

/-- Other characters than ASCII have one case. -/
theorem toLower_of_not_ascii {c : Char} (h : 128 ≤ c.toNat) : c.toLower = c := by
  refine dif_neg ?_
  rintro ⟨-, hZ⟩
  have : c.toNat ≤ 90 := hZ
  omega

theorem toLower_eq_iff_of_not_letter {c d : Char} (hd : ∀ n < 128, (Char.ofNat n).toLower = d → Char.ofNat n = d)
    (hd' : d.toLower = d) : c.toLower = d ↔ c = d := by
  constructor
  · exact ascii_cases c hd fun c hc h => (toLower_of_not_ascii hc).symm.trans h
  · rintro rfl
    exact hd'

theorem value?_toLower (c : Char) : value? c.toLower = value? c := by
  refine ascii_cases c (by decide) fun c hc => ?_
  rw [toLower_of_not_ascii hc]

theorem value?_of_not_ascii {c : Char} (h : 128 ≤ c.toNat) : value? c = none := by
  have hlt {d : Char} (hd : d.toNat < 128) : ¬ c ≤ d := fun hc => by
    have : c.toNat ≤ d.toNat := hc
    omega
  rw [value?, if_neg fun hc => hlt (by decide) hc.2, if_neg fun hc => hlt (by decide) hc.2,
    if_neg fun hc => hlt (by decide) hc.2]

/-- A digit is read up to its case. -/
theorem value?_eq_some_iff {c : Char} {v : Nat} : value? c = some v ↔ v < 16 ∧ c.toLower = Nat.digitChar v := by
  constructor
  · have hdigit : ∀ v ∈ value? c, v < 16 ∧ c.toLower = Nat.digitChar v := by
      refine ascii_cases c (by decide) fun c hc => ?_
      simp [value?_of_not_ascii hc]
    exact hdigit v
  · rintro ⟨hv, hc⟩
    rw [← value?_toLower, hc, value?_digitChar v hv]

theorem byte?_eq_some_iff {hi lo : Char} {b : UInt8} :
    byte? hi lo = some b ↔ [hi.toLower, lo.toLower] = ofByte b := by
  constructor
  · intro h
    obtain ⟨v, hv, w, hw, rfl⟩ : ∃ v, value? hi = some v ∧ ∃ w, value? lo = some w ∧ UInt8.ofNat (16 * v + w) = b := by
      simpa [byte?, Option.bind_eq_some_iff] using h
    obtain ⟨hv, hhi⟩ := value?_eq_some_iff.1 hv
    obtain ⟨hw, hlo⟩ := value?_eq_some_iff.1 hw
    have hb : (UInt8.ofNat (16 * v + w)).toNat = 16 * v + w := by
      rw [UInt8.toNat_ofNat']
      omega
    rw [ofByte, hhi, hlo, hb, show (16 * v + w) / 16 = v by omega, show (16 * v + w) % 16 = w by omega]
  · intro h
    obtain ⟨hhi, hlo⟩ : hi.toLower = Nat.digitChar (b.toNat / 16) ∧ lo.toLower = Nat.digitChar (b.toNat % 16) := by
      simpa [ofByte] using h
    rw [← byte?_ofByte b, ← hhi, ← hlo, byte?, byte?, value?_toLower, value?_toLower]

/-- Digits are read up to their case. -/
theorem bytes?_eq_some_iff {cs : List Char} {bs : List UInt8} :
    bytes? cs = some bs ↔ cs.map Char.toLower = ofBytes bs := by
  induction cs using bytes?.induct generalizing bs with
  | case1 => cases bs <;> simp [bytes?, ofBytes, ofByte]
  | case2 c => cases bs <;> simp [bytes?, ofBytes, ofByte]
  | case3 hi lo cs ih =>
    cases bs with
    | nil => simp [bytes?, ofBytes, Option.bind_eq_some_iff]
    | cons b bs =>
      have hcons : ofBytes (b :: bs) = ofByte b ++ ofBytes bs := rfl
      have hread : bytes? (hi :: lo :: cs) = some (b :: bs) ↔ byte? hi lo = some b ∧ bytes? cs = some bs := by
        simp [bytes?, Option.bind_eq_some_iff]
      rw [hread, byte?_eq_some_iff, ih, hcons, ofByte]
      simp [and_assoc]

end Hex

namespace Uuid

/-! ## Groups of either case -/

theorem map_toLower_hyphenate (ns : List Nat) (cs : List Char) :
    (hyphenate ns cs).map Char.toLower = hyphenate ns (cs.map Char.toLower) := by
  induction ns, cs using hyphenate.induct with
  | case1 n m ns cs ih =>
    rw [hyphenate, hyphenate, List.map_append, List.map_cons, ih, List.map_take, List.map_drop]
    rfl
  | case2 cs ns h =>
    rw [hyphenate.eq_2 _ _ h, hyphenate.eq_2 _ _ h]

theorem toLower_eq_hyphen_iff {c : Char} : c.toLower = '-' ↔ c = '-' :=
  Hex.toLower_eq_iff_of_not_letter (by decide) rfl

theorem unhyphenate?_map_toLower (ns : List Nat) (cs : List Char) :
    unhyphenate? ns (cs.map Char.toLower) = (unhyphenate? ns cs).map (·.map Char.toLower) := by
  induction ns, cs using unhyphenate?.induct with
  | case1 n m ns cs h ih =>
    have h' : (cs.map Char.toLower)[n]? = some '-' := by simp [h]
    rw [unhyphenate?, unhyphenate?, if_pos h, if_pos h', ← List.map_drop, ih, ← List.map_take]
    cases unhyphenate? (m :: ns) (cs.drop (n + 1)) <;> simp
  | case2 n m ns cs h =>
    have h' : (cs.map Char.toLower)[n]? ≠ some '-' := by
      simpa [toLower_eq_hyphen_iff] using h
    rw [unhyphenate?, unhyphenate?, if_neg h, if_neg h']
    rfl
  | case3 cs ns h => rw [unhyphenate?.eq_2 _ _ h, unhyphenate?.eq_2 _ _ h]; rfl

/-- What is left when the hyphens are gone says where they were. -/
theorem hyphenate_of_unhyphenate? {ns : List Nat} {cs ds : List Char} (h : unhyphenate? ns cs = some ds) :
    hyphenate ns ds = cs := by
  induction ns, cs using unhyphenate?.induct generalizing ds with
  | case1 n m ns cs hn ih =>
    rw [unhyphenate?, if_pos hn] at h
    obtain ⟨ds, hds, rfl⟩ := Option.map_eq_some_iff.1 h
    obtain ⟨hlt, hget⟩ := List.getElem?_eq_some_iff.1 hn
    have hlen : (cs.take n).length = n := by simp; omega
    rw [hyphenate, List.take_left' hlen, List.drop_left' hlen, ih hds, ← hget, List.getElem_cons_drop,
      List.take_append_drop]
  | case2 n m ns cs hn => simp [unhyphenate?, hn] at h
  | case3 cs ns hns =>
    rw [unhyphenate?.eq_2 _ _ hns] at h
    rw [hyphenate.eq_2 _ _ hns, Option.some.inj h]

/-! ## Forms -/

/-- The forms in which an identifier is read. -/
inductive Form where
  | digits
  | hyphenated
  /-- The hyphenated form in braces. -/
  | braced
  /-- The hyphenated form as a resource name. -/
  | resource
deriving DecidableEq

namespace Form

/-- The text of an identifier in a form, in lower case. -/
def chars (u : Uuid) : Form → List Char
  | digits => Hex.ofBytes u.bytes
  | hyphenated => u.chars
  | braced => '\x7b' :: (u.chars ++ ['\x7d'])
  | resource => resourceScheme ++ u.chars

/-- Reads one form. -/
def read? (cs : List Char) : Form → Option Uuid
  | digits => ofDigits? cs
  | hyphenated => ofHyphenated? cs
  | braced => ofBraced? cs
  | resource => ofResourceName? cs

end Form

/-- A text is one of the forms of an identifier, in any case. -/
def Spells (u : Uuid) (s : String) : Prop := ∃ form : Form, s.toList.map Char.toLower = form.chars u

theorem ofDigits?_eq_some_iff {cs : List Char} {u : Uuid} :
    ofDigits? cs = some u ↔ cs.map Char.toLower = Hex.ofBytes u.bytes := by
  rw [← Hex.bytes?_eq_some_iff, ofDigits?]
  constructor
  · intro h
    obtain ⟨bs, hbs, hu⟩ := Option.bind_eq_some_iff.1 h
    obtain ⟨_, rfl⟩ : ∃ h : bs.length = 16, ⟨bs, h⟩ = u := by simpa [ofBytes?] using hu
    exact hbs
  · intro h
    rw [h]
    exact ofBytes?_bytes u

theorem ofHyphenated?_eq_some_iff {cs : List Char} {u : Uuid} :
    ofHyphenated? cs = some u ↔ cs.map Char.toLower = u.chars := by
  constructor
  · intro h
    obtain ⟨ds, hds, hu⟩ := Option.bind_eq_some_iff.1 h
    rw [← hyphenate_of_unhyphenate? hds, map_toLower_hyphenate, ofDigits?_eq_some_iff.1 hu, chars]
  · intro h
    have hds := unhyphenate?_map_toLower groups cs
    rw [h, unhyphenate?_chars] at hds
    obtain ⟨ds, hds, hu⟩ := Option.map_eq_some_iff.1 hds.symm
    rw [ofHyphenated?, hds]
    exact ofDigits?_eq_some_iff.2 hu

theorem ofBraced?_eq_some_iff {cs : List Char} {u : Uuid} :
    ofBraced? cs = some u ↔ cs.map Char.toLower = '\x7b' :: (u.chars ++ ['\x7d']) := by
  have hopen (c : Char) : c.toLower = '\x7b' ↔ c = '\x7b' := Hex.toLower_eq_iff_of_not_letter (by decide) rfl
  have hclose (c : Char) : c.toLower = '\x7d' ↔ c = '\x7d' := Hex.toLower_eq_iff_of_not_letter (by decide) rfl
  cases cs with
  | nil => simp [ofBraced?]
  | cons c cs =>
    rw [ofBraced?, List.map_cons, List.cons.injEq, hopen]
    rcases List.eq_nil_or_concat cs with rfl | ⟨cs, d, rfl⟩
    · simp
    · rw [List.concat_eq_append, List.getLast?_concat, List.dropLast_concat, List.map_append, List.map_singleton,
        List.append_singleton_inj, hclose, ← ofHyphenated?_eq_some_iff]
      simp [and_assoc, and_comm]

theorem ofResourceName?_eq_some_iff {cs : List Char} {u : Uuid} :
    ofResourceName? cs = some u ↔ cs.map Char.toLower = resourceScheme ++ u.chars := by
  have hlen : resourceScheme.length = 9 := by decide
  have hcut : cs.map Char.toLower = (cs.take 9).map Char.toLower ++ (cs.drop 9).map Char.toLower := by
    rw [← List.map_append, List.take_append_drop]
  have hread : ofResourceName? cs = some u ↔
      (cs.take 9).map Char.toLower = resourceScheme ∧ (cs.drop 9).map Char.toLower = u.chars := by
    rw [ofResourceName?, ← ofHyphenated?_eq_some_iff]
    simp
  rw [hread]
  constructor
  · rintro ⟨hscheme, hu⟩
    rw [hcut, hscheme, hu]
  · intro h
    rw [List.map_take, List.map_drop, h, List.take_left' hlen, List.drop_left' hlen]
    exact ⟨rfl, rfl⟩

namespace Form

theorem read?_eq_some_iff {form : Form} {cs : List Char} {u : Uuid} :
    form.read? cs = some u ↔ cs.map Char.toLower = form.chars u := by
  cases form with
  | digits => exact ofDigits?_eq_some_iff
  | hyphenated => exact ofHyphenated?_eq_some_iff
  | braced => exact ofBraced?_eq_some_iff
  | resource => exact ofResourceName?_eq_some_iff

/-- The number of characters of a form. -/
def length : Form → Nat
  | digits => 32
  | hyphenated => 36
  | braced => 38
  | resource => 45

theorem length_chars (form : Form) (u : Uuid) : (form.chars u).length = form.length := by
  have hdigits : (Hex.ofBytes u.bytes).length = 32 := by simp [u.length_bytes]
  have hchars : u.chars.length = 36 := by simp [Uuid.chars, groups, hyphenate, hdigits]
  have hscheme : resourceScheme.length = 9 := by decide
  cases form <;> simp [chars, length, hdigits, hchars, hscheme]

theorem length_inj {form form' : Form} (h : form.length = form'.length) : form = form' := by
  cases form <;> cases form' <;> first | rfl | cases h

/-- A text of one form is not read in another. -/
theorem read?_eq_none {form form' : Form} {cs : List Char} {u : Uuid} (h : form.read? cs = some u)
    (hne : form' ≠ form) : form'.read? cs = none := by
  refine Option.eq_none_iff_forall_ne_some.2 fun u' h' => hne (length_inj ?_)
  rw [← length_chars form u, ← length_chars form' u', ← read?_eq_some_iff.1 h, ← read?_eq_some_iff.1 h']

end Form

/-- **What is read as an identifier**: the texts that are one of its forms up to case. -/
theorem ofText?_eq_some_iff {s : String} {u : Uuid} : ofText? s = some u ↔ Spells u s := by
  have hforms : ofText? s = some u ↔ ∃ form : Form, form.read? s.toList = some u := by
    have htext : ofText? s = (Form.digits.read? s.toList <|> Form.hyphenated.read? s.toList <|>
      Form.braced.read? s.toList <|> Form.resource.read? s.toList) := rfl
    rw [htext]
    constructor
    · intro h
      simp only [Option.orElse_eq_orElse, Option.orElse_eq_or, Option.or_eq_some_iff] at h
      rcases h with h | ⟨-, h | ⟨-, h | ⟨-, h⟩⟩⟩ <;> exact ⟨_, h⟩
    · rintro ⟨form, h⟩
      have hother (form' : Form) (hne : form' ≠ form) := Form.read?_eq_none h hne
      cases form <;> simp [h, hother]
  simp only [hforms, Spells, Form.read?_eq_some_iff]

end Uuid

end LockReplica
