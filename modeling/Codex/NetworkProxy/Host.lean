import Codex.Text.Basic
import Codex.Data.Search

namespace Codex.NetworkProxy

open Text

/-!
# Hosts

Hosts reach the proxy as texts: names, IP addresses, with a port or in brackets.  The policy
compares them after `normalizeHost`.

* `isIpAddr` — what the standard library parses as an `IpAddr`;
* `normalizeHost` — trim, strip the brackets or the port, lower the case, cut off trailing dots,
  and write the scope of an address with a plain `%`;
* `Host` — a host that is normalized and not empty.
-/

/-! ### IP addresses

`IpAddr::from_str` reads an IPv4 address if there is one in front, and an IPv6 address otherwise;
either must take up the whole text.  Only whether it succeeds is used here. -/

/-- The digits in front of the text, read as a number of at most `maxDigits` digits: what is
    behind it. -/
def readNumber (isDigit : Char → Bool) (maxDigits : ℕ) (s : Text) : Option (Text × Text) :=
  let digits := s.takeWhile isDigit
  if digits = [] ∨ maxDigits < digits.length then none else some (digits, s.dropWhile isDigit)

/-- The value of decimal digits. -/
def decimalValue (digits : Text) : ℕ :=
  digits.foldl (fun value c => 10 * value + (c.toNat - '0'.toNat)) 0

variable (s : Text)

/-- One number of an IPv4 address: at most 255, and written without leading zeros. -/
def readOctet : Option Text := do
  let (digits, rest) ← readNumber Char.isDigit 3 s
  if (digits.head? = some '0' ∧ 1 < digits.length) ∨ 255 < decimalValue digits then none
  else some rest

/-- A digit of a number to the base 16. -/
def isHexDigit (c : Char) : Bool := c.isDigit || ('a' ≤ c && c ≤ 'f') || ('A' ≤ c && c ≤ 'F')

/-- One group of an IPv6 address. -/
def readGroup : Option Text := do
  let (_, rest) ← readNumber isHexDigit 4 s
  return rest

/-- `read_ipv4_addr`: what is behind the address. -/
def readIpv4Addr : Option Text := do
  let s ← readOctet s
  let s ← stripPrefix ['.'] s >>= readOctet
  let s ← stripPrefix ['.'] s >>= readOctet
  stripPrefix ['.'] s >>= readOctet

/-- `read_groups`: at most `limit` groups separated by colons, the last two of which may be
    written as an IPv4 address.  The result is the number of groups, whether there was such an
    address, and what is behind. -/
def readGroups : (limit : ℕ) → (first : Bool) → Text → ℕ × Bool × Text
  | 0, _, s => (0, false, s)
  | limit + 1, first, s =>
    let body := if first then some s else stripPrefix [':'] s
    match if 0 < limit then body >>= readIpv4Addr else none with
    | some rest => (2, true, rest)
    | none =>
      match body >>= readGroup with
      | none => (0, false, s)
      | some rest =>
        let (count, ipv4, rest) := readGroups limit false rest
        (count + 1, ipv4, rest)

/-- `read_ipv6_addr`: what is behind the address. -/
def readIpv6Addr : Option Text :=
  let (headSize, headIpv4, rest) := readGroups 8 true s
  if headSize = 8 then some rest
  else if headIpv4 then none
  else do
    let rest ← stripPrefix [':', ':'] rest
    return (readGroups (8 - (headSize + 1)) true rest).2.2

/-- Whether `IpAddr::from_str` accepts the text. -/
def isIpAddr : Bool :=
  match readIpv4Addr s with
  | some rest => rest = []
  | none => readIpv6Addr s = some []

/-! ### Normal form -/

/-- `str::to_ascii_lowercase`. -/
def toAsciiLowercase : Text := s.map Char.toLower

/-- `trim_end_matches('.')`. -/
def trimEndDots : Text := s.rdropWhile (· == '.')

/-- `str::split_once`. -/
def splitOnce (delimiter s : Text) : Option (Text × Text) :=
  (Data.find delimiter s).map fun i => (s.take i, s.drop (i + delimiter.length))

/-- An IP address in normal form: a scope stands behind a plain `%`. -/
def normalizeIpLiteral (host : Text) : Option Text :=
  if isIpAddr host then some host
  else
    ["%25".toList, "%".toList].findSome? fun delimiter =>
      (splitOnce delimiter host).bind fun (ip, scope) =>
        if isIpAddr ip then some (ip ++ '%' :: scope) else none

def normalizeDnsHostOrIpLiteral (host : Text) : Text :=
  let host := trimEndDots (toAsciiLowercase host)
  (normalizeIpLiteral host).getD host

/-- Normalize host fragments for policy matching. -/
def normalizeHost (host : Text) : Text :=
  let host := trim host
  if host.head? = some '[' ∧ ']' ∈ host then
    normalizeDnsHostOrIpLiteral ((host.drop 1).takeWhile (· ≠ ']'))
  -- a single colon starts a port; more than one belong to an address without brackets
  else if host.count ':' = 1 then normalizeDnsHostOrIpLiteral (host.takeWhile (· ≠ ':'))
  else normalizeDnsHostOrIpLiteral host

/-- A normalized host string for policy evaluation. -/
structure Host where
  text : Text
  normalized : ∃ input, normalizeHost input = text
  nonempty : text ≠ []

/-- `Host::parse`. -/
def Host.parse (input : Text) : Except Text Host :=
  if h : normalizeHost input = [] then .error "host is empty"
  else .ok ⟨normalizeHost input, ⟨input, rfl⟩, h⟩

end Codex.NetworkProxy
