/-
  `src/io_service_pool.hpp`, `src/io_service_pool.cpp`, in the MAP_PER_IO build.

  The io_services and maps of a pool are objects; the model names them by their number in order
  of construction. Indexing a vector out of range and the exception of the constructor are
  explicit. Proved: after any numbers of calls the cursors stand where they should
  (`RoundRobin`), so no index is ever out of range.
-/
import PaleoServer.Lib.RoundRobin
import PaleoServer.Bytes

namespace PaleoServer

/-- What can go wrong in a pool: its constructor throws, or a vector is indexed past its end. -/
inductive PoolError where
  | runtimeError (what : Bytes)
  | indexOutOfRange
  deriving DecidableEq, Repr

/-- `class io_service_pool`. -/
structure IoServicePool where
  ioServices : List Nat
  mapServices : List Nat
  nextIoService : Nat
  nextMapService : Nat
  deriving DecidableEq, Repr

namespace IoServicePool

/-- The constructor. -/
def create (poolSize : Nat) : Except PoolError IoServicePool :=
  if poolSize = 0 then
    .error (.runtimeError (bytes "io_service_pool size is 0"))
  else
    .ok
      { ioServices := List.range poolSize
        mapServices := List.range poolSize
        nextIoService := 0
        nextMapService := 0 }

/-- `io_service_pool::get_io_service`. -/
def getIoService (p : IoServicePool) : Except PoolError (Nat × IoServicePool) :=
  match p.ioServices[p.nextIoService]? with
  | none => .error .indexOutOfRange
  | some ioService =>
    let next := p.nextIoService + 1
    .ok (ioService,
      { p with nextIoService := if next = p.ioServices.length then 0 else next })

/-- `io_service_pool::get_map_service`. -/
def getMapService (p : IoServicePool) : Except PoolError (Nat × IoServicePool) :=
  match p.mapServices[p.nextMapService]? with
  | none => .error .indexOutOfRange
  | some map =>
    let next := p.nextMapService + 1
    .ok (map, { p with nextMapService := if next = p.mapServices.length then 0 else next })

/-- A pool of `n` after `k` calls of `get_io_service` and `l` of `get_map_service`. -/
def after (n k l : Nat) : IoServicePool where
  ioServices := List.range n
  mapServices := List.range n
  nextIoService := k % n
  nextMapService := l % n

theorem create_eq {n : Nat} (hn : 0 < n) : create n = .ok (after n 0 0) := by
  unfold create after
  rw [if_neg (Nat.ne_of_gt hn), Nat.zero_mod]

theorem getIoService_after {n : Nat} (hn : 0 < n) (k l : Nat) :
    (after n k l).getIoService = .ok (k % n, after n (k + 1) l) := by
  have hidx : (List.range n)[k % n]? = some (k % n) := List.getElem?_range (Nat.mod_lt k hn)
  have hnext := RoundRobin.next_mod hn k
  unfold RoundRobin.next at hnext
  simp only [getIoService, after, hidx, List.length_range, hnext]

theorem getMapService_after {n : Nat} (hn : 0 < n) (k l : Nat) :
    (after n k l).getMapService = .ok (l % n, after n k (l + 1)) := by
  have hidx : (List.range n)[l % n]? = some (l % n) := List.getElem?_range (Nat.mod_lt l hn)
  have hnext := RoundRobin.next_mod hn l
  unfold RoundRobin.next at hnext
  simp only [getMapService, after, hidx, List.length_range, hnext]

end IoServicePool

end PaleoServer
