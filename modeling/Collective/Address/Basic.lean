/-!
# Addresses

The address of a manager is an IP address with a port, and for IPv6 a scope. Addresses are ordered:
IPv4 before IPv6, then by address, port and scope.
-/

namespace Collective

/-- An IPv4 address. -/
structure Ipv4 where
  a : UInt8
  b : UInt8
  c : UInt8
  d : UInt8
  deriving DecidableEq, Repr

/-- An IPv6 address. -/
structure Ipv6 where
  groups : List UInt16
  length_groups : groups.length = 8
  deriving DecidableEq, Repr

/-- Host and port of one manager. -/
inductive Address where
  | v4 (ip : Ipv4) (port : UInt16)
  | v6 (ip : Ipv6) (port : UInt16) (scope : UInt32)
  deriving DecidableEq, Repr

namespace Address

/-- The port. -/
def port : Address → UInt16
  | .v4 _ port => port
  | .v6 _ port _ => port

/-- The address is an IPv6 address. -/
def isV6 : Address → Bool
  | .v4 _ _ => false
  | .v6 _ _ _ => true

/-- The numbers by which addresses are ordered, the most significant first. -/
def orderKey : Address → List Nat
  | .v4 ip port => [0, ip.a.toNat, ip.b.toNat, ip.c.toNat, ip.d.toNat, port.toNat]
  | .v6 ip port scope => 1 :: (ip.groups.map (·.toNat) ++ [port.toNat, scope.toNat])

instance : LT Address := ⟨fun x y => x.orderKey < y.orderKey⟩

instance : DecidableLT Address := fun x y => inferInstanceAs (Decidable (x.orderKey < y.orderKey))

instance : LE Address := ⟨fun x y => ¬ y < x⟩

/-- Addresses are ordered by all that they consist of. -/
theorem orderKey_inj {x y : Address} (h : x.orderKey = y.orderKey) : x = y := by
  cases x with
  | v4 ip port =>
    cases y with
    | v4 ip' port' =>
      obtain ⟨a, b, c, d⟩ := ip
      obtain ⟨a', b', c', d'⟩ := ip'
      simpa [orderKey, UInt8.toNat_inj, UInt16.toNat_inj, and_assoc] using h
    | v6 => cases h
  | v6 ip port scope =>
    cases y with
    | v4 => cases h
    | v6 ip' port' scope' =>
      obtain ⟨groups, hlength⟩ := ip
      obtain ⟨groups', hlength'⟩ := ip'
      obtain ⟨hgroups, hrest⟩ := List.append_inj (List.cons.inj h).2
        (by rw [List.length_map, List.length_map, hlength, hlength'])
      obtain rfl := (List.map_inj_right fun _ _ => UInt16.toNat_inj.1).1 hgroups
      simpa [UInt16.toNat_inj, UInt32.toNat_inj] using hrest

instance : Std.LawfulOrderLT Address where
  lt_iff x y := by
    refine ⟨fun h => ⟨?_, fun hnot => hnot h⟩, fun h => Decidable.not_not.1 h.2⟩
    exact Std.not_gt_of_lt (a := x.orderKey) (b := y.orderKey) h

instance : Std.IsLinearOrder Address :=
  have le_iff : ∀ {x y : Address}, x ≤ y ↔ x.orderKey ≤ y.orderKey :=
    Std.not_lt (α := List Nat)
  { le_refl := fun _ => le_iff.2 (Std.le_refl _)
    le_trans := fun _ _ _ h h' => le_iff.2 (Std.le_trans (le_iff.1 h) (le_iff.1 h'))
    le_antisymm := fun _ _ h h' => orderKey_inj (Std.le_antisymm (le_iff.1 h) (le_iff.1 h'))
    le_total := fun _ _ => Std.le_total.imp le_iff.2 le_iff.2 }

/-- Addresses in order, each once. -/
def sorted (addresses : List Address) : List Address :=
  (addresses.mergeSort fun x y => x = y || x < y).foldr
    (fun x rest => if rest.head? = some x then rest else x :: rest) []

end Address

end Collective
