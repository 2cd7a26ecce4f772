import WorkloadKit.Library.Ring
import WorkloadKit.Pipeline.State

namespace WorkloadKit.Pipeline

-- How often the thread at one end of a queue has passed each of the statements by which it uses the
-- queue. The producer waits for `semFree`, puts, advances `ip` and posts `semBusy`. The consumer
-- waits for `semBusy`, gets, advances `ic` and posts `semFree`.
structure Counts where
  waits    : ℕ
  accesses : ℕ
  advances : ℕ
  posts    : ℕ

-- The slots and values of the accesses to a ring of size `Q` which carries the stream `f`.
def accesses (Q : ℕ) (f : Stream' CChar) : Stream' (ℕ × CChar) :=
  fun j => (j % Q, f.get j)

namespace Queue

-- The queue carries the stream `f` from a producer which has come as far as `prod` says to a
-- consumer which has come as far as `cons` says.
structure Carries (Q : ℕ) (f : Stream' CChar) (prod cons : Counts) (q : Queue) : Prop where
  free : q.semFree + prod.waits = Q + cons.posts
  busy : q.semBusy + cons.waits = prod.posts
  ip   : q.ip = prod.advances % Q
  ic   : q.ic = cons.advances % Q
  ring : Ring.Holds Q q.data f cons.accesses prod.accesses
  puts : q.puts = (accesses Q f).take prod.accesses
  gets : q.gets = (accesses Q f).take cons.accesses

namespace Carries

variable {Q : ℕ} {f : Stream' CChar} {prod cons : Counts} {q q' : Queue}

theorem init (p : Params) : Carries p.queueLength f ⟨0, 0, 0, 0⟩ ⟨0, 0, 0, 0⟩ (.init p) where
  free := rfl
  busy := rfl
  ip   := (Nat.zero_mod _).symm
  ic   := (Nat.zero_mod _).symm
  ring := .empty
  puts := rfl
  gets := rfl

theorem waitFree (h : Carries Q f prod cons q) (hw : q.waitFree = some q') :
    Carries Q f { prod with waits := prod.waits + 1 } cons q' := by
  simp only [Queue.waitFree, Option.ite_none_right_eq_some, Option.some.injEq] at hw
  obtain ⟨hp, rfl⟩ := hw
  exact { h with free := by have := h.free; simp only; omega }

theorem waitBusy (h : Carries Q f prod cons q) (hw : q.waitBusy = some q') :
    Carries Q f prod { cons with waits := cons.waits + 1 } q' := by
  simp only [Queue.waitBusy, Option.ite_none_right_eq_some, Option.some.injEq] at hw
  obtain ⟨hp, rfl⟩ := hw
  exact { h with busy := by have := h.busy; simp only; omega }

theorem postFree (h : Carries Q f prod cons q) :
    Carries Q f prod { cons with posts := cons.posts + 1 } q.postFree :=
  { h with free := by have := h.free; simp only [Queue.postFree]; omega }

theorem postBusy (h : Carries Q f prod cons q) :
    Carries Q f { prod with posts := prod.posts + 1 } cons q.postBusy :=
  { h with busy := by have := h.busy; simp only [Queue.postBusy]; omega }

-- A producer that has passed its wait finds a slot that is not in use.
theorem accesses_lt (h : Carries Q f prod cons q) (hp : prod.accesses < prod.waits)
    (hc : cons.posts ≤ cons.accesses) : prod.accesses < cons.accesses + Q := by
  have := h.free
  omega

theorem put (h : Carries Q f prod cons q) (hp : prod.accesses < prod.waits)
    (hc : cons.posts ≤ cons.accesses) (ha : prod.advances = prod.accesses)
    (hv : f.get prod.accesses = c) :
    Carries Q f { prod with accesses := prod.accesses + 1 } cons (q.put c) := by
  have hi : q.ip = prod.accesses % Q := ha ▸ h.ip
  subst hv
  exact { h with
    ring := by simp only [Queue.put, hi]; exact h.ring.push (h.accesses_lt hp hc)
    puts := by simp only [Queue.put, hi, h.puts, Stream'.take_succ']; rfl }

theorem front_eq (h : Carries Q f prod cons q) (hc : cons.accesses < cons.waits)
    (hp : prod.posts ≤ prod.accesses) (ha : cons.advances = cons.accesses) :
    q.front = f.get cons.accesses := by
  have hi : q.ic = cons.accesses % Q := ha ▸ h.ic
  have := h.busy
  rw [front, hi]
  exact h.ring.front (by omega)

theorem get (h : Carries Q f prod cons q) (hc : cons.accesses < cons.waits)
    (hp : prod.posts ≤ prod.accesses) (ha : cons.advances = cons.accesses) :
    Carries Q f prod { cons with accesses := cons.accesses + 1 } q.get := by
  have hi : q.ic = cons.accesses % Q := ha ▸ h.ic
  exact { h with
    ring := h.ring.drop
    gets := by simp only [Queue.get, hi, h.front_eq hc hp ha, h.gets, Stream'.take_succ']; rfl }

theorem advanceIp {p : Params} (h : Carries p.queueLength f prod cons q) :
    Carries p.queueLength f { prod with advances := prod.advances + 1 } cons (q.advanceIp p) :=
  { h with ip := by simp only [Queue.advanceIp, h.ip, Nat.mod_add_mod] }

theorem advanceIc {p : Params} (h : Carries p.queueLength f prod cons q) :
    Carries p.queueLength f prod { cons with advances := cons.advances + 1 } (q.advanceIc p) :=
  { h with ic := by simp only [Queue.advanceIc, h.ic, Nat.mod_add_mod] }

end Carries
end Queue
end WorkloadKit.Pipeline
