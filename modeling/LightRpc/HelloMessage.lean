import LightRpc.ByteOrder
import LightRpc.Lib.Layout

/- `HelloMessage`: the 44 bytes each side sends over TCP before the queue pairs are connected
   (`fast_rdma_endpoint.cc`).

   `serialize` writes the eleven fields one behind the other, numbers in network order;
   `deserialize` reads them at their offsets. Both are the packed record `layout`
   (`serialize_layout`, `deserialize_layout`), which carries the two round trips. -/
namespace LightRpc

open Lib

/-- A `uint16_t` in network order. -/
def be16 : Field UInt16 2 where
  put x := storeHalf (htons x.toNat)
  get b := UInt16.ofNat (ntohs (loadHalf b))
  length_put _ := rfl
  get_put := by
    intro x rest
    rw [loadHalf_storeHalf (htons_lt _), ntohs_htons x.toNat_lt, UInt16.ofNat_toNat]
  put_get := by
    intro b hb
    rw [UInt16.toNat_ofNat', ntohs, Nat.mod_eq_of_lt (htons_lt _)]
    exact (congrArg storeHalf (ntohs_htons (loadHalf_lt b))).trans (storeHalf_loadHalf hb)

/-- A `uint32_t` in network order. -/
def be32 : Field UInt32 4 where
  put x := storeWord (htonl x.toNat)
  get b := UInt32.ofNat (ntohl (loadWord b))
  length_put _ := rfl
  get_put := by
    intro x rest
    rw [loadWord_storeWord (htonl_lt _), ntohl_htonl x.toNat_lt, UInt32.ofNat_toNat]
  put_get := by
    intro b hb
    rw [UInt32.toNat_ofNat', ntohl, Nat.mod_eq_of_lt (htonl_lt _)]
    exact (congrArg storeWord (ntohl_htonl (loadWord_lt b))).trans (storeWord_loadWord hb)

structure HelloMessage where
  magic : Fin 4 → UInt8
  msgLen : UInt16
  helloVer : UInt16
  implVer : UInt16
  blockSize : UInt32
  sqSize : UInt16
  rqSize : UInt16
  lid : UInt16
  gid : Fin 16 → UInt8
  qpNum : UInt32
  dataQpNum : UInt32
  deriving DecidableEq

namespace HelloMessage

def kMsgLen : Nat := 44
def kHelloVer : UInt16 := 1
def kImplVer : UInt16 := 1

def serialize (m : HelloMessage) : Bytes :=
  List.ofFn m.magic ++ storeHalf (htons m.msgLen.toNat) ++ storeHalf (htons m.helloVer.toNat) ++
    storeHalf (htons m.implVer.toNat) ++ storeWord (htonl m.blockSize.toNat) ++ storeHalf (htons m.sqSize.toNat) ++
    storeHalf (htons m.rqSize.toNat) ++ storeHalf (htons m.lid.toNat) ++ List.ofFn m.gid ++
    storeWord (htonl m.qpNum.toNat) ++ storeWord (htonl m.dataQpNum.toNat)

def deserialize (data : Bytes) : HelloMessage where
  magic := fun i => data.getD i 0
  msgLen := UInt16.ofNat (ntohs (loadHalf (data.drop 4)))
  helloVer := UInt16.ofNat (ntohs (loadHalf (data.drop 6)))
  implVer := UInt16.ofNat (ntohs (loadHalf (data.drop 8)))
  blockSize := UInt32.ofNat (ntohl (loadWord (data.drop 10)))
  sqSize := UInt16.ofNat (ntohs (loadHalf (data.drop 14)))
  rqSize := UInt16.ofNat (ntohs (loadHalf (data.drop 16)))
  lid := UInt16.ofNat (ntohs (loadHalf (data.drop 18)))
  gid := fun i => (data.drop 20).getD i 0
  qpNum := UInt32.ofNat (ntohl (loadWord (data.drop 36)))
  dataQpNum := UInt32.ofNat (ntohl (loadWord (data.drop 40)))

/-- `memcmp(magic, "RDMA", 4) == 0` -/
def hasMagic (m : HelloMessage) : Bool := m.magic = ![82, 68, 77, 65]

/-- `HelloNegotiationValid` -/
def negotiationValid (m : HelloMessage) : Bool :=
  m.helloVer = kHelloVer ∧ m.implVer ≠ 0 ∧ 1024 ≤ m.blockSize.toNat ∧ 16 ≤ m.sqSize.toNat ∧ 16 ≤ m.rqSize.toNat

/-! The record. -/

def layout := (Field.raw 4).pair <| be16.pair <| be16.pair <| be16.pair <| be32.pair <| be16.pair <| be16.pair <|
  be16.pair <| (Field.raw 16).pair <| be32.pair be32

def fields (m : HelloMessage) :=
  (m.magic, m.msgLen, m.helloVer, m.implVer, m.blockSize, m.sqSize, m.rqSize, m.lid, m.gid, m.qpNum, m.dataQpNum)

theorem fields_injective : Function.Injective fields := by
  intro a b h
  cases a
  cases b
  simpa [fields] using h

theorem serialize_layout (m : HelloMessage) : m.serialize = layout.put m.fields := by
  simp only [serialize, List.append_assoc]
  rfl

theorem deserialize_layout (data : Bytes) : (deserialize data).fields = layout.get data := by
  simp only [layout, Field.pair, List.drop_drop]
  rfl

theorem length_serialize (m : HelloMessage) : m.serialize.length = kMsgLen := by
  rw [serialize_layout, layout.length_put]
  rfl

theorem deserialize_serialize (m : HelloMessage) (rest : Bytes) : deserialize (m.serialize ++ rest) = m := by
  apply fields_injective
  rw [deserialize_layout, serialize_layout, layout.get_put]

theorem serialize_deserialize {data : Bytes} (h : data.length = kMsgLen) : (deserialize data).serialize = data := by
  rw [serialize_layout, deserialize_layout]
  exact layout.put_get_self h

end HelloMessage

end LightRpc
