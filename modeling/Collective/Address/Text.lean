import Collective.Address.Basic
import Collective.Json.Basic
import Collective.Text.Blank

/-!
# The text of an address

An address is written `a.b.c.d:port` or `[groups%scope]:port`: groups in lower-case hexadecimal, the
first of the longest runs of at least two zero groups as `::`, an IPv4-mapped address with its last
part dotted, no scope if it is zero. The reader skips blanks at both ends and one `tcp://`, and
takes every spelling of the same address. A host and a port may be given in another way too: the
host as a number, or as a name. What names stand for is not known here; whoever reads brings a
`Resolver` along.
-/

namespace Collective

/-! ## Writing -/

/-- The dotted form of an IPv4 address. -/
def Ipv4.render (ip : Ipv4) : String :=
  s!"{ip.a.toNat}.{ip.b.toNat}.{ip.c.toNat}.{ip.d.toNat}"

namespace Ipv6

/-- A group in hexadecimal. -/
def renderGroup (g : UInt16) : String := String.ofList (Nat.toDigits 16 g.toNat)

/-- Groups with colons between them. -/
def renderGroups (groups : List UInt16) : String := ":".intercalate (groups.map renderGroup)

/-- The number of zero groups at the start. -/
def zeros (groups : List UInt16) : Nat := (groups.takeWhile (· = 0)).length

/-- Start and length of the first of the longest runs of zero groups. -/
def longestZeros (start : Nat) : List UInt16 → Nat × Nat
  | [] => (0, 0)
  | g :: rest =>
    let later := longestZeros (start + 1) rest
    let here := zeros (g :: rest)
    if here ≠ 0 ∧ later.2 ≤ here then (start, here) else later

/-- The two bytes of a group. -/
def splitGroup (g : UInt16) : UInt8 × UInt8 := ((g >>> 8).toUInt8, g.toUInt8)

/-- The group of two bytes. -/
def joinGroup (high low : UInt8) : UInt16 := high.toUInt16 <<< 8 ||| low.toUInt16

/-- The written form of groups. -/
def renderList : List UInt16 → String
  | [0, 0, 0, 0, 0, 0xFFFF, g, h] =>
    let (a, b) := splitGroup g
    let (c, d) := splitGroup h
    "::ffff:" ++ Ipv4.render ⟨a, b, c, d⟩
  | groups =>
    let (start, length) := longestZeros 0 groups
    if 1 < length then
      renderGroups (groups.take start) ++ "::" ++ renderGroups (groups.drop (start + length))
    else renderGroups groups

/-- The written form of an IPv6 address. -/
def render (ip : Ipv6) : String := renderList ip.groups

end Ipv6

namespace Address

/-- The text of an address. -/
def render : Address → String
  | .v4 ip port => s!"{ip.render}:{port.toNat}"
  | .v6 ip port scope =>
    if scope = 0 then s!"[{ip.render}]:{port.toNat}"
    else s!"[{ip.render}%{scope.toNat}]:{port.toNat}"

instance : ToString Address := ⟨render⟩

/-! ## Reading -/

/-- The value of a digit in a base. -/
def digit? (base : Nat) (c : Char) : Option Nat :=
  let value :=
    if '0' ≤ c ∧ c ≤ '9' then c.toNat - 48
    else if 'a' ≤ c ∧ c ≤ 'z' then c.toNat - 87
    else if 'A' ≤ c ∧ c ≤ 'Z' then c.toNat - 55
    else base
  if value < base then some value else none

/-- The digits at the start of a text, and what follows them. -/
def spanDigits (base : Nat) : List Char → List Nat × List Char
  | [] => ([], [])
  | c :: rest =>
    match digit? base c with
    | some d => let (ds, after) := spanDigits base rest; (d :: ds, after)
    | none => ([], c :: rest)

/-- How a number may be written. -/
structure NumberForm where
  base : Nat
  /-- The greatest number of digits; none if only the value counts. -/
  maxDigits : Option Nat
  /-- Zeros before other digits are allowed. -/
  leadingZeros : Bool
  /-- The number has to be below it. -/
  bound : Nat

/-- The number at the start of a text, and what follows it. -/
def NumberForm.read? (form : NumberForm) (cs : List Char) : Option (Nat × List Char) :=
  let (ds, rest) := spanDigits form.base cs
  let value := ds.foldl (fun n d => n * form.base + d) 0
  if ds = [] ∨ form.maxDigits.any (· < ds.length) ∨ form.bound ≤ value then none
  else if !form.leadingZeros ∧ ds.head? = some 0 ∧ 1 < ds.length then none
  else some (value, rest)

/-- One part of a dotted address. -/
def octetForm : NumberForm := ⟨10, some 3, false, 2 ^ 8⟩

/-- One group of an IPv6 address. -/
def groupForm : NumberForm := ⟨16, some 4, true, 2 ^ 16⟩

/-- A port. -/
def portForm : NumberForm := ⟨10, none, true, 2 ^ 16⟩

/-- A scope. -/
def scopeForm : NumberForm := ⟨10, none, true, 2 ^ 32⟩

/-- What follows a given character. -/
def skip? (c : Char) : List Char → Option (List Char)
  | d :: rest => if c = d then some rest else none
  | [] => none

/-- The dotted address at the start of a text. -/
def ipv4? (cs : List Char) : Option (Ipv4 × List Char) := do
  let (a, cs) ← octetForm.read? cs
  let (b, cs) ← octetForm.read? (← skip? '.' cs)
  let (c, cs) ← octetForm.read? (← skip? '.' cs)
  let (d, cs) ← octetForm.read? (← skip? '.' cs)
  some (⟨UInt8.ofNat a, UInt8.ofNat b, UInt8.ofNat c, UInt8.ofNat d⟩, cs)

/-- The two groups that a dotted address stands for. -/
def groupsOfIpv4 (ip : Ipv4) : List UInt16 := [Ipv6.joinGroup ip.a ip.b, Ipv6.joinGroup ip.c ip.d]

/-- What follows the colon that has to stand before every group but the first. -/
def separated? (first : Bool) (cs : List Char) : Option (List Char) :=
  if first then some cs else skip? ':' cs

/-- At most `limit` groups with colons between them, the last two perhaps as a dotted address;
whether there was one; and what follows. -/
def groups (limit : Nat) (first : Bool) (cs : List Char) : List UInt16 × Bool × List Char :=
  match limit with
  | 0 => ([], false, cs)
  | limit + 1 =>
    let dotted := if limit = 0 then none else (separated? first cs).bind ipv4?
    match dotted with
    | some (ip, rest) => (groupsOfIpv4 ip, true, rest)
    | none =>
      match (separated? first cs).bind groupForm.read? with
      | some (g, rest) =>
        let (gs, hasDotted, rest) := groups limit false rest
        (UInt16.ofNat g :: gs, hasDotted, rest)
      | none => ([], false, cs)

/-- Eight groups. -/
def ofGroups? (gs : List UInt16) : Option Ipv6 :=
  if h : gs.length = 8 then some ⟨gs, h⟩ else none

/-- The IPv6 address at the start of a text. -/
def ipv6? (cs : List Char) : Option (Ipv6 × List Char) :=
  let (head, hasDotted, rest) := groups 8 true cs
  if head.length = 8 then (ofGroups? head).map (·, rest)
  else if hasDotted then none
  else do
    let rest ← skip? ':' (← skip? ':' rest)
    let (tail, _, rest) := groups (7 - head.length) true rest
    let ip ← ofGroups? (head ++ List.replicate (8 - head.length - tail.length) 0 ++ tail)
    some (ip, rest)

/-- The scope at the start of a text; zero if there is none. -/
def scope? : List Char → Option (Nat × List Char)
  | '%' :: rest => scopeForm.read? rest
  | cs => some (0, cs)

/-- The address that a whole text writes in the standard form. -/
def standard? (cs : List Char) : Option Address :=
  match ipv4? cs with
  | some (ip, rest) => do
    let (port, rest) ← portForm.read? (← skip? ':' rest)
    if rest = [] then some (.v4 ip (UInt16.ofNat port)) else none
  | none => do
    let (ip, rest) ← ipv6? (← skip? '[' cs)
    let (scope, rest) ← scope? rest
    let (port, rest) ← portForm.read? (← skip? ':' (← skip? ']' rest))
    if rest = [] then some (.v6 ip (UInt16.ofNat port) (UInt32.ofNat scope)) else none

/-! ### Hosts given as numbers -/

/-- A part of a host number: decimal, octal behind `0`, hexadecimal behind `0x`. -/
def hostPart? (cs : List Char) : Option Nat :=
  let whole (base : Nat) (cs : List Char) : Option Nat :=
    (NumberForm.read? ⟨base, none, true, 2 ^ 32⟩ cs).bind fun (n, rest) =>
      if rest = [] then some n else none
  match cs with
  | '0' :: 'x' :: rest | '0' :: 'X' :: rest => whole 16 rest
  | '0' :: rest => whole 8 ('0' :: rest)
  | cs => whole 10 cs

/-- The parts of a host number: each but the last is a byte, the last fills the bytes left. -/
def hostNumber? : (bytes : Nat) → List Nat → Option Nat
  | _, [] => none
  | bytes, [last] => if last < 256 ^ bytes then some last else none
  | bytes + 1, part :: rest =>
    if part < 256 ∧ bytes ≠ 0 then (hostNumber? bytes rest).map (part * 256 ^ bytes + ·) else none
  | 0, _ => none

/-- The IPv4 address of a host number. -/
def hostIpv4? (cs : List Char) : Option Ipv4 := do
  let parts ← (cs.splitOn '.').mapM hostPart?
  let n ← hostNumber? 4 parts
  some ⟨UInt8.ofNat (n / 2 ^ 24), UInt8.ofNat (n / 2 ^ 16), UInt8.ofNat (n / 2 ^ 8), UInt8.ofNat n⟩

/-- The port of a service, which may have a plus sign. -/
def servicePort? (cs : List Char) : Option UInt16 := do
  let (port, rest) ← portForm.read? (cs.dropWhile (· = '+'))
  if rest = [] ∧ (cs.takeWhile (· = '+')).length ≤ 1 then some (UInt16.ofNat port) else none

/-- A text split at its last colon. -/
def splitLastColon? (cs : List Char) : Option (List Char × List Char) :=
  let service := cs.reverse.takeWhile (· ≠ ':')
  match cs.reverse.drop service.length with
  | _ :: host => some (host.reverse, service.reverse)
  | [] => none

/-- The address of a host that is a number. -/
def numericHost? (host : List Char) (port : UInt16) : Option Address :=
  match hostIpv4? host with
  | some ip => some (.v4 ip port)
  | none => do
    let (ip, rest) ← ipv6? host
    let (scope, rest) ← scope? rest
    if rest = [] then some (.v6 ip port (UInt32.ofNat scope)) else none

/-! ### Hosts given by name -/

/-- What names stand for: the addresses of a host at a port, or none if the name cannot be looked
up. -/
abbrev Resolver := String → UInt16 → Option (List Address)

/-- No name can be looked up. -/
def Resolver.none : Resolver := fun _ _ => Option.none

/-- The addresses of a text that ends in a colon and a port. -/
def lookup? (names : Resolver) (cs : List Char) : Option (List Address) := do
  let (host, service) ← splitLastColon? cs
  let port ← servicePort? service
  match numericHost? host port with
  | some address => some [address]
  | none => names (String.ofList host) port

/-- Why a text gives no address. -/
inductive Malformed where
  /-- It is no address and names no host that can be looked up. -/
  | unreadable (text : String)
  /-- The host it names has no address. -/
  | unresolved (text : String)
  deriving DecidableEq, Repr

/-- The wording of the error. -/
def Malformed.message : Malformed → String
  | .unreadable text => s!"failed to parse remote address '{text}'"
  | .unresolved text => s!"no addresses resolved for '{text}'"

/-- A text without a leading `tcp://`. -/
def withoutScheme (cs : List Char) : List Char :=
  let scheme := "tcp://".toList
  if scheme.isPrefixOf cs then cs.drop scheme.length else cs

/-- The address that a text gives. Of several addresses of a host it is the first. -/
def resolve (names : Resolver) (text : String) : Except Malformed Address :=
  let cs := withoutScheme (Text.trim text.toList)
  match standard? cs with
  | some address => .ok address
  | none =>
    match lookup? names cs with
    | none => .error (.unreadable text)
    | some [] => .error (.unresolved text)
    | some (address :: _) => .ok address

/-- The address that a text writes, where no names can be looked up. -/
def parse (text : String) : Except Malformed Address := resolve .none text

/-! ## JSON form -/

/-- An address is written as its text. -/
def toJson (address : Address) : Json := .ofString address.render

/-- The address whose text a JSON string is. -/
def fromJson? (names : Resolver) (j : Json) : Option Address :=
  j.string?.bind fun text => (resolve names text).toOption

/-- The same, where no names can be looked up. -/
def ofJson? (j : Json) : Option Address := fromJson? .none j

end Address

end Collective
