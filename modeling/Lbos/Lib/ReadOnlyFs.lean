import Lbos.Lib.Service
import Lbos.Lib.Stream

/-! A file system that is only read: named files in an order, and handles that are open on a file, as
a stream over its contents, or on the directory.  All listings share one place. -/

namespace Lbos.Lib.ReadOnlyFs

variable {α β : Type*}

/-- What a path leads to. -/
inductive Target (β : Type*) where
  | directory
  | file (name : List β)
  | nothing

inductive Op (β : Type*) where
  | open_ (target : Target β)
  | close
  | read (count : Nat)
  | write
  | seek (offset : Nat)
  | list (room : Nat)

inductive Handle (α : Type*) where
  | closed
  | file (stream : Stream α)
  | directory

/-- `invalid` answers a call on a handle that is not open, of which nothing is promised. -/
inductive Reply (α β : Type*) where
  | invalid
  | done
  | refused
  | elements (elements : List α)
  | entry (name : List β)
  | finished
  deriving DecidableEq

/-- What a stream answers, as a reply. -/
def Reply.ofStream : Stream.Result α → Reply α β
  | .read xs => .elements xs
  | .sought => .done
  | .refused => .refused

variable [DecidableEq β] (files : List (List β × List α))

def step : Op β → Handle α → Nat → Reply α β × Handle α × Nat
  | .open_ .directory, _, place => (.done, .directory, place)
  | .open_ (.file name), handle, place =>
    match files.find? (·.1 = name) with
    | some file => (.done, .file (.start file.2), place)
    | none => (.refused, handle, place)
  | .open_ .nothing, handle, place => (.refused, handle, place)
  | _, .closed, place => (.invalid, .closed, place)
  | .close, _, place => (.done, .closed, place)
  | .read count, .file stream, place =>
    (.ofStream (stream.step (.read count)).1, .file (stream.step (.read count)).2, place)
  | .seek offset, .file stream, place =>
    (.ofStream (stream.step (.seek offset)).1, .file (stream.step (.seek offset)).2, place)
  | .list _, .file stream, place => (.finished, .file stream, place)
  | .list room, .directory, place =>
    match files[place]? with
    | some file => (.entry (file.1.take room), .directory, place + 1)
    | none => (.finished, .directory, 0)
  | _, handle, place => (.refused, handle, place)

/-- Files that any number of handles are open on. -/
def service (κ : Type*) : Service (κ × Op β) κ (Handle α) Nat (Reply α β) where
  handle := Prod.fst
  step call := step files call.2

/-- No handle is open, and no listing has begun. -/
def closed (κ : Type*) : (κ → Handle α) × Nat := (fun _ => .closed, 0)

end Lbos.Lib.ReadOnlyFs
