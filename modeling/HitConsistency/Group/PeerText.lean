/- GID: HitConsistency/Group/PeerText
   digest: Peer identities as text: what is printed is parsed back. -/

import HitConsistency.Base.DecimalText
import HitConsistency.Group.Peers
import Mathlib.Data.List.TakeWhile

set_option autoImplicit false
set_option relaxedAutoImplicit false

namespace HitConsistency.Group.PeerText

open HitConsistency.Base.DecimalText
open HitConsistency.Group.Peers

/-- `ip2str` and `str2ip` of the endpoint library, for IPv4 addresses in dotted decimals. -/
structure AddressText where
  ip2str : UInt32 → List Char
  str2ip : List Char → Option UInt32
  str2ip_ip2str : ∀ ip, str2ip (ip2str ip) = some ip
  dotted : ∀ ip, ∀ c ∈ ip2str ip, c = '.' ∨ c.isDigit = true
  nonempty : ∀ ip, ip2str ip ≠ []
  short : ∀ ip, (ip2str ip).length ≤ 15

/-- The value is one of type `int`. -/
def IsInt (n : Int) : Prop := -2 ^ 31 ≤ n ∧ n < 2 ^ 31

instance isIntDecidable (n : Int) : Decidable (IsInt n) := inferInstanceAs (Decidable (_ ∧ _))

/-- Port and index are of type `int`. -/
def Fits (id : PeerId) : Prop := IsInt id.port ∧ IsInt id.idx

instance fitsDecidable (id : PeerId) : Decidable (Fits id) := inferInstanceAs (Decidable (_ ∧ _))

/-- The fields that `sscanf` has assigned before it stopped. -/
inductive Scanned
  | nothing
  | address (ip : List Char)
  | port (ip : List Char) (port : Int)
  | index (ip : List Char) (port idx : Int)

/-- `%*[:]`: one or more colons. -/
def skipColons (text : List Char) : Option (List Char) :=
  if text.head? = some ':' then some (text.dropWhile (· = ':')) else none

/-- `%*[:]%d`; the outer `none` is a number that does not fit, which has no result. -/
def scanField (text : List Char) : Option (Option (Int × List Char)) :=
  match (skipColons text).bind scanDecimal with
  | none => some none
  | some (n, rest) => if IsInt n then some (some (n, rest)) else none

/-- `sscanf` with `%[^:]%*[:]%d%*[:]%d`. An address that overruns its buffer of 64
characters has no result. -/
def scan (text : List Char) : Option Scanned :=
  let ip := text.takeWhile (· ≠ ':')
  if ip = [] then some .nothing
  else if 64 ≤ ip.length then none
  else do
    match ← scanField (text.dropWhile (· ≠ ':')) with
    | none => some (.address ip)
    | some (port, rest) =>
        match ← scanField rest with
        | none => some (.port ip port)
        | some (idx, _) => some (.index ip port idx)

/-- The part of a string in front of its first NUL, as C functions see it. -/
def cStr (text : List Char) : List Char := text.takeWhile (· ≠ '\x00')

variable (addresses : AddressText)

/-- `PeerId::parse`: the identity behind it, and whether the result is 0. -/
def parse (str : List Char) : Option (PeerId × Bool) :=
  (scan (cStr str)).map fun scanned =>
    let assign (ip : List Char) (port idx : Int) : PeerId × Bool :=
      match addresses.str2ip ip with
      | some ip => (⟨ip, port, idx⟩, true)
      | none => (.empty, false)
    match scanned with
    | .nothing | .address _ => (.empty, false)
    | .port ip port => assign ip port 0
    | .index ip port idx => assign ip port idx

/-- `endpoint2str`. -/
def endpoint2str (ip : UInt32) (port : Int) : List Char := addresses.ip2str ip ++ ':' :: decimal port

/-- `PeerId::to_string`; the buffer has room for 127 characters. -/
def toString (id : PeerId) : List Char :=
  (endpoint2str addresses id.ip id.port ++ ':' :: decimal id.idx).take 127

variable {addresses}

private theorem skipColons_one {text : List Char} (h : text.head? ≠ some ':') :
    skipColons (':' :: text) = some text := by
  unfold skipColons
  rw [List.head?_cons, if_pos rfl, List.dropWhile_cons_of_pos (by decide)]
  cases text with
  | nil => rfl
  | cons c text =>
    have hc : c ≠ ':' := fun heq => h (by rw [heq]; rfl)
    rw [List.dropWhile_cons_of_neg (by simpa using hc)]

private theorem decimal_no_colon {n : Int} {rest : List Char} :
    (decimal n ++ rest).head? ≠ some ':' := by
  intro h
  cases htext : decimal n with
  | nil =>
    have hscan := scanDecimal_decimal n (show Ends [] by rintro _ ⟨⟩)
    rw [htext] at hscan
    cases hscan
  | cons c text =>
    rw [htext] at h
    cases h
    have hmem : ':' ∈ decimal n := by simp [htext]
    rcases mem_decimal hmem with hc | hc
    · exact absurd hc (by decide)
    · exact absurd hc (by decide)

private theorem scanField_decimal {n : Int} (hn : IsInt n) {rest : List Char} (hends : Ends rest) :
    scanField (':' :: (decimal n ++ rest)) = some (some (n, rest)) := by
  unfold scanField
  rw [skipColons_one decimal_no_colon]
  show (match scanDecimal (decimal n ++ rest) with
    | none => some none
    | some (n, rest) => if IsInt n then some (some (n, rest)) else none) = _
  rw [scanDecimal_decimal n hends]
  exact if_pos hn

private theorem scan_printed {ip : List Char} (hip : ∀ c ∈ ip, c ≠ ':') (hne : ip ≠ [])
    (hshort : ip.length ≤ 15) {port idx : Int} (hport : IsInt port) (hidx : IsInt idx) :
    scan (ip ++ ':' :: (decimal port ++ ':' :: decimal idx)) = some (.index ip port idx) := by
  have hrun : ∀ c ∈ ip, decide (c ≠ ':') = true := fun c hc => decide_eq_true (hip c hc)
  have htake : (ip ++ ':' :: (decimal port ++ ':' :: decimal idx)).takeWhile (· ≠ ':') = ip := by
    rw [List.takeWhile_append_of_pos hrun, List.takeWhile_cons_of_neg (by decide), List.append_nil]
  have hdrop : (ip ++ ':' :: (decimal port ++ ':' :: decimal idx)).dropWhile (· ≠ ':') =
      ':' :: (decimal port ++ ':' :: decimal idx) := by
    rw [List.dropWhile_append_of_pos hrun, List.dropWhile_cons_of_neg (by decide)]
  have hfirst : scanField (':' :: (decimal port ++ ':' :: decimal idx)) =
      some (some (port, ':' :: decimal idx)) :=
    scanField_decimal hport (by rintro c ⟨⟩; decide)
  have hsecond : scanField (':' :: decimal idx) = some (some (idx, [])) := by
    have hfield : scanField (':' :: (decimal idx ++ [])) = some (some (idx, [])) :=
      scanField_decimal hidx (by rintro c ⟨⟩)
    rwa [List.append_nil] at hfield
  unfold scan
  rw [htake, hdrop, if_neg hne, if_neg (by omega), hfirst]
  show (scanField (':' :: decimal idx)).bind _ = _
  rw [hsecond]
  rfl

theorem length_printed {id : PeerId} (h : Fits id) :
    (endpoint2str addresses id.ip id.port ++ ':' :: decimal id.idx).length ≤ 39 := by
  have hip := addresses.short id.ip
  have hport := length_decimal_le h.1.1 h.1.2
  have hidx := length_decimal_le h.2.1 h.2.2
  simp only [endpoint2str, List.length_append, List.length_cons]
  omega

private theorem toString_eq {id : PeerId} (h : Fits id) :
    toString addresses id = addresses.ip2str id.ip ++
      ':' :: (decimal id.port ++ ':' :: decimal id.idx) := by
  have hlength : (endpoint2str addresses id.ip id.port ++ ':' :: decimal id.idx).length ≤ 39 :=
    length_printed h
  unfold toString
  rw [List.take_of_length_le (by omega)]
  simp [endpoint2str]

theorem mem_toString {id : PeerId} (h : Fits id) {c : Char} (hc : c ∈ toString addresses id) :
    c = '.' ∨ c = ':' ∨ c = '-' ∨ c.isDigit = true := by
  rw [toString_eq h] at hc
  simp only [List.mem_append, List.mem_cons] at hc
  rcases hc with hc | hc | hc | hc | hc
  · rcases addresses.dotted _ _ hc with hc | hc
    · exact .inl hc
    · exact .inr (.inr (.inr hc))
  · exact .inr (.inl hc)
  · exact .inr (.inr (mem_decimal hc))
  · exact .inr (.inl hc)
  · exact .inr (.inr (mem_decimal hc))

theorem parse_toString {id : PeerId} (h : Fits id) :
    parse addresses (toString addresses id) = some (id, true) := by
  have hstr : cStr (toString addresses id) = toString addresses id := by
    unfold cStr
    rw [List.takeWhile_eq_self_iff]
    intro c hc
    apply decide_eq_true
    rintro rfl
    rcases mem_toString h hc with hc | hc | hc | hc <;> exact absurd hc (by decide)
  have hscan : scan (toString addresses id) =
      some (.index (addresses.ip2str id.ip) id.port id.idx) := by
    rw [toString_eq h]
    apply scan_printed _ (addresses.nonempty _) (addresses.short _) h.1 h.2
    rintro c hc rfl
    rcases addresses.dotted _ _ hc with hc | hc <;> exact absurd hc (by decide)
  unfold parse
  rw [hstr, hscan]
  simp [addresses.str2ip_ip2str]

private theorem scanField_isInt {text rest : List Char} {n : Int}
    (h : scanField text = some (some (n, rest))) : IsInt n := by
  unfold scanField at h
  split at h
  · cases h
  · split at h
    · cases h
      assumption
    · cases h

theorem fits_of_parse {str : List Char} {id : PeerId} {ok : Bool}
    (h : parse addresses str = some (id, ok)) : Fits id := by
  have hempty : Fits .empty := by decide
  obtain ⟨scanned, hscan, hid⟩ := Option.map_eq_some_iff.mp h
  unfold scan at hscan
  dsimp only at hscan
  split at hscan
  · cases hscan
    cases hid
    exact hempty
  · split at hscan
    · cases hscan
    · obtain ⟨first, hfirst, hscan⟩ := Option.bind_eq_some_iff.mp hscan
      cases first with
      | none =>
        cases hscan
        cases hid
        exact hempty
      | some first =>
        obtain ⟨second, hsecond, hscan⟩ := Option.bind_eq_some_iff.mp hscan
        have hport := scanField_isInt hfirst
        cases second with
        | none =>
          cases hscan
          dsimp only at hid
          split at hid
          · cases hid
            exact ⟨hport, show IsInt 0 by decide⟩
          · cases hid
            exact hempty
        | some second =>
          cases hscan
          dsimp only at hid
          split at hid
          · cases hid
            exact ⟨hport, scanField_isInt hsecond⟩
          · cases hid
            exact hempty

section Dotted

private def octet (ip : UInt32) (i : Nat) : Nat := ip.toNat / 256 ^ i % 256

def dottedText (ip : UInt32) : List Char :=
  Nat.toDigits 10 (octet ip 3) ++ '.' :: (Nat.toDigits 10 (octet ip 2) ++
    '.' :: (Nat.toDigits 10 (octet ip 1) ++ '.' :: (Nat.toDigits 10 (octet ip 0) ++ [])))

private def scanDot : List Char → Option (List Char)
  | '.' :: rest => some rest
  | _ => none

def scanDotted (text : List Char) : Option UInt32 := do
  let (a, rest) ← scanDigits text
  let (b, rest) ← scanDigits (← scanDot rest)
  let (c, rest) ← scanDigits (← scanDot rest)
  let (d, rest) ← scanDigits (← scanDot rest)
  if rest = [] ∧ a < 256 ∧ b < 256 ∧ c < 256 ∧ d < 256 then
    some (UInt32.ofNat (a * 256 ^ 3 + b * 256 ^ 2 + c * 256 + d))
  else none

private theorem octet_lt (ip : UInt32) (i : Nat) : octet ip i < 256 := Nat.mod_lt _ (by decide)

private theorem ofNat_octets (ip : UInt32) :
    UInt32.ofNat (octet ip 3 * 256 ^ 3 + octet ip 2 * 256 ^ 2 + octet ip 1 * 256 + octet ip 0) =
      ip := by
  have hlt := ip.toNat_lt
  apply UInt32.toNat_inj.mp
  rw [UInt32.toNat_ofNat']
  simp only [octet]
  omega

private theorem length_octet (ip : UInt32) (i : Nat) :
    (Nat.toDigits 10 (octet ip i)).length ≤ 3 := by
  have hlt := octet_lt ip i
  exact (Nat.length_toDigits_le_iff (by decide) (by decide)).mpr (by omega)

def dottedDecimals : AddressText where
  ip2str := dottedText
  str2ip := scanDotted
  str2ip_ip2str := by
    intro ip
    have hdot : ∀ text, Ends ('.' :: text) := by
      rintro text c ⟨⟩
      decide
    have hend : Ends [] := by rintro c ⟨⟩
    unfold scanDotted dottedText
    simp only [scanDigits_toDigits _ (hdot _), scanDigits_toDigits _ hend, scanDot,
      Option.bind_eq_bind, Option.bind_some]
    rw [if_pos (by simp [octet_lt]), ofNat_octets]
  dotted := by
    intro ip c hc
    simp only [dottedText, List.mem_append, List.mem_cons, List.not_mem_nil, or_false] at hc
    rcases hc with hc | hc | hc | hc | hc | hc | hc
    · exact .inr (isDigit_of_mem_toDigits hc)
    · exact .inl hc
    · exact .inr (isDigit_of_mem_toDigits hc)
    · exact .inl hc
    · exact .inr (isDigit_of_mem_toDigits hc)
    · exact .inl hc
    · exact .inr (isDigit_of_mem_toDigits hc)
  nonempty := by
    intro ip h
    exact Nat.toDigits_ne_nil (List.append_eq_nil_iff.mp h).1
  short := by
    intro ip
    have h3 := length_octet ip 3
    have h2 := length_octet ip 2
    have h1 := length_octet ip 1
    have h0 := length_octet ip 0
    simp only [dottedText, List.length_append, List.length_cons, List.length_nil]
    omega

end Dotted

end HitConsistency.Group.PeerText
