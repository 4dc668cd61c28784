import FinBit.P2P.Kademlia

/-! # Direct connections

`PeerNet` as its callers see it: a pool of outbound workers, one for each address. `send` hands the
bytes to the worker of the address and does not wait for it; a worker dials in a thread of its own.
One that could not reach its peer stays in the pool and writes nothing any more.
-/

namespace FinBit.P2P

open FinBit.Lib

/-! ### Addresses -/

/-- `isspace`. -/
def isSpace (c : UInt8) : Bool := c = 0x20 || (9 ≤ c && c ≤ 13)

/-- `isdigit`. -/
def isDigit (c : UInt8) : Bool := 0x30 ≤ c && c ≤ 0x39

/-- `atoi`. Out of the range of an `int` the result is undefined; here it is the number that is
written. -/
def atoi (s : Bytes) : Int :=
  let digits (s : Bytes) : Nat :=
    (s.takeWhile isDigit).foldl (fun n c => 10 * n + (c.toNat - 0x30)) 0
  match s.dropWhile isSpace with
  | 0x2d :: s => -(digits s : Int)
  | 0x2b :: s => digits s
  | s => digits s

/-- `a.rfind("wss://", 0) == 0`. -/
def isWss (addr : Bytes) : Bool := (ascii "wss://").isPrefixOf addr

/-- `parse_wss_addr`: the host and the port. -/
def parseWssAddr (addr : Bytes) : Option (Bytes × UInt16) :=
  if addr.length ≤ 6 ∨ isWss addr = false then none
  else
    -- without the fragment
    let rest := (addr.drop 6).takeWhile (· ≠ 0x23)
    if 0x3a ∉ rest then none
    else
      let port := (rest.reverse.takeWhile (· ≠ 0x3a)).reverse
      let host := rest.take (rest.length - port.length - 1)
      let host := if host.head? = some 0x5b ∧ host.getLast? = some 0x5d then host.tail.dropLast else host
      let p := atoi port
      if p ≤ 0 ∨ p > 65535 then none else some (host, UInt16.ofNat p.toNat)

example : parseWssAddr (ascii "wss://[::1]:443#ab") = some (ascii "::1", 443) := by decide

/-! ### The pool -/

/-- An outbound worker. -/
structure PeerNet.Worker (M : Type) where
  /-- For whom the worker was made: the connection is pinned to this key. -/
  peer : PeerInfo
  /-- The dial has failed, or the connection has ended. -/
  stop : Bool
  writes : List M

/-- `out_conns`, by address. -/
abbrev PeerNet (M : Type) := Bytes → Option (PeerNet.Worker M)

namespace PeerNet

variable {M : Type}

def send (net : PeerNet M) (peer : PeerInfo) (bytes : M) : PeerNet M × Bool :=
  match parseWssAddr peer.addr with
  | none => (net, false)
  | some _ =>
    -- the worker of the address, whoever it was made for
    let w := (net peer.addr).getD ⟨peer, false, []⟩
    (Function.update net peer.addr (some { w with writes := w.writes ++ [bytes] }), true)

/-- The bytes are with a worker that has not given up, on a connection of this key. -/
def Carries (net : PeerNet M) (pubkey : Bytes) (bytes : M) : Prop :=
  ∃ addr w, net addr = some w ∧ w.stop = false ∧ w.peer.pubkey = pubkey ∧ bytes ∈ w.writes

/-! What `send` answers depends on the address alone. -/

theorem send_of_none (peer : PeerInfo) (malformed : parseWssAddr peer.addr = none) (net : PeerNet M)
    (bytes : M) : net.send peer bytes = (net, false) := by
  simp only [send, malformed]

theorem send_of_some (peer : PeerInfo) {target : Bytes × UInt16}
    (parsed : parseWssAddr peer.addr = some target) (net : PeerNet M) (bytes : M) :
    ∃ net', net.send peer bytes = (net', true) := by
  simp only [send, parsed]
  exact ⟨_, rfl⟩

end PeerNet

end FinBit.P2P
