import Astrald.Lib.Table
import Astrald.Lib.Trace

/-!
# Ephemeral listeners

The kcp and the tcp module keep the servers of `CreateEphemeralListener` by port. `CloseEphemeralListener`,
and the goroutine of a server whose `Run` has returned, delete the entry of the port, whatever server it is.

* `running_listed`: when every deletion finds its own server or none, a running server is the entry of its port;
* `running_unlisted`: the goroutine of a closed server deletes the entry of the next one.
-/

namespace Astrald.Exonet

open List

variable {Port Server : Type} [DecidableEq Port] [DecidableEq Server] {port : Server → Port}

/-- The map and the servers: those closed or with `Run` returned are `stopped`, those whose goroutine is
over are `ended`; `found` and `closing` are what `CloseEphemeralListener` calls hold, before and after
`Close`. -/
structure Listeners (port : Server → Port) where
  ephemeralListeners : Table port
  created : List Server
  stopped : List Server
  ended : List Server
  found : List Server
  closing : List Server

inductive Op (Port Server : Type)
  /-- `CreateEphemeralListener`, under `mu`, with a new server. -/
  | create (srv : Server)
  /-- `CloseEphemeralListener` looks the port up, closes the server and deletes the entry. -/
  | get (p : Port)
  | close (srv : Server)
  | delete (srv : Server)
  /-- The idle timeout, the context or the handler closes the server, or `Run` fails. -/
  | stop (srv : Server)
  /-- The goroutine deletes the entry after `Run`. -/
  | exit (srv : Server)

namespace Listeners

def empty : Listeners port := ⟨.empty, [], [], [], [], []⟩

section

variable (s : Listeners port)

def stop (srv : Server) : Listeners port := { s with stopped := srv :: s.stopped }

def delete (srv : Server) : Listeners port :=
  { s with ephemeralListeners := s.ephemeralListeners.erase (port srv) }

def step : Op Port Server → Listeners port
  | .create srv =>
    if s.ephemeralListeners.find (port srv) = none ∧ srv ∉ s.created then
      { s with ephemeralListeners := s.ephemeralListeners.insert srv, created := srv :: s.created }
    else s
  | .get p => (s.ephemeralListeners.find p).elim s fun srv => { s with found := srv :: s.found }
  | .close srv =>
    if srv ∈ s.found then { s.stop srv with found := s.found.erase srv, closing := srv :: s.closing } else s
  | .delete srv => if srv ∈ s.closing then { s.delete srv with closing := s.closing.erase srv } else s
  | .stop srv => if srv ∈ s.created then s.stop srv else s
  | .exit srv =>
    if srv ∈ s.stopped ∧ srv ∉ s.ended then { s.delete srv with ended := srv :: s.ended } else s

/-- Every running server is the entry of its port. -/
def Listed : Prop := ∀ srv ∈ s.created, srv ∉ s.stopped → srv ∈ s.ephemeralListeners.rows

instance : Decidable s.Listed := inferInstanceAs (Decidable (∀ srv ∈ s.created, _ → _))

/-- The entry of the server's port is this server, if there is one. -/
def Own (srv : Server) : Prop := ∀ other ∈ s.ephemeralListeners.rows, port other = port srv → other = srv

/-- A deletion finds the entry of its own server or none. -/
def Undisturbed : Op Port Server → Prop
  | .delete srv | .exit srv => s.Own srv
  | _ => True

structure Sound : Prop where
  listed : s.Listed
  closing : ∀ srv ∈ s.closing, srv ∈ s.stopped

end

def exec : List (Op Port Server) → Listeners port := Trace.exec step empty

variable {s : Listeners port} (h : s.Sound) {srv : Server}
include h

omit [DecidableEq Port] [DecidableEq Server] in
theorem Sound.stop (srv : Server) : (s.stop srv).Sound where
  listed x hx hrun := h.listed x hx (not_mem_of_not_mem_cons hrun)
  closing x hx := mem_cons_of_mem srv (h.closing x hx)

omit [DecidableEq Server] in
theorem Sound.delete (hstopped : srv ∈ s.stopped) (hown : s.Own srv) : (s.delete srv).Sound := by
  refine { h with listed := fun x hx hrun => ?_ }
  have hlisted := h.listed x hx hrun
  refine Table.mem_erase.mpr ⟨hlisted, fun hport => hrun ?_⟩
  rw [hown x hlisted hport]
  exact hstopped

theorem Sound.step (op : Op Port Server) (hop : s.Undisturbed op) : (s.step op).Sound := by
  cases op with
  | create srv =>
    refine Trace.when_keeps h fun ⟨hfree, _⟩ => { h with listed := fun x hx hrun => ?_ }
    rw [Table.rows_insert hfree, mem_append, mem_singleton]
    exact (mem_cons.mp hx).symm.imp_left fun hx => h.listed x hx hrun
  | get p => exact Trace.elim_keeps h _ _ fun srv _ => { h with }
  | close srv =>
    refine Trace.when_keeps h fun _ => { h.stop srv with closing := fun x hx => ?_ }
    exact mem_cons.mpr ((mem_cons.mp hx).imp_right (h.closing x))
  | delete srv =>
    refine Trace.when_keeps h fun hin => { h.delete (h.closing srv hin) hop with closing := fun x hx => ?_ }
    exact h.closing x (mem_of_mem_erase hx)
  | stop srv => exact Trace.when_keeps h fun _ => h.stop srv
  | exit srv => exact Trace.when_keeps h fun hstopped => { h.delete hstopped.1 hop with }

omit h

/-- While every deletion finds its own server or none, a server that runs is the entry of its port. -/
theorem running_listed (port : Server → Port) (ops : List (Op Port Server))
    (h : Trace.Along (fun ops => Undisturbed (exec ops : Listeners port)) ops) :
    (exec ops : Listeners port).Listed := by
  have hsound : (exec ops : Listeners port).Sound :=
    h.invariant ⟨nofun, nofun⟩ fun op _ hop ih => ih.step op hop
  exact hsound.listed

theorem running_listed_two : (exec [.create 1, .exit 0, .stop 0, .create 0] : Listeners fun _ : ℕ => ()).Listed :=
  running_listed _ _ ⟨trivial, fun _ hother _ => mem_singleton.mp hother, trivial, trivial, trivial⟩

/-- The goroutine of the first server ends when the second one runs. -/
theorem running_unlisted : ¬ (exec [.exit 0, .create 1, .delete 0, .close 0, .get (), .create 0] :
    Listeners fun _ : ℕ => ()).Listed := by
  decide

end Listeners

end Astrald.Exonet
