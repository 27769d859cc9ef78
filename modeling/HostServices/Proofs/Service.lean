import Mathlib.Data.List.Basic

/-!
# Services that are asked again and again

A service carries out one request after another, each in the state that the one before it left.
`Service.run` lists what came of the requests, and `Service.finish` is the state behind them. What
is true of every request in every state that can be reached is stated for the request that follows
a run: nothing is lost by that, since every request of a run follows the run of those before it
(`Service.exists_of_mem_run`).
-/

namespace HostServices

/-- A service with states `σ` that is asked `κ` and comes to `τ`. -/
structure Service (σ κ τ : Type) where
  /-- What comes of a request. -/
  serve : σ → κ → τ
  /-- The state that it leaves. -/
  next : τ → σ

namespace Service

variable {σ κ τ : Type}

/-- The state after one request after another. -/
def finish (S : Service σ κ τ) (s : σ) (requests : List κ) : σ :=
  requests.foldl (fun s r => S.next (S.serve s r)) s

/-- What comes of one request after another. -/
def run (S : Service σ κ τ) : σ → List κ → List τ
  | _, [] => []
  | s, r :: requests => S.serve s r :: run S (S.next (S.serve s r)) requests

variable (S : Service σ κ τ) {s : σ} {requests : List κ}

@[simp] theorem finish_cons (s : σ) (r : κ) (requests : List κ) :
    S.finish s (r :: requests) = S.finish (S.next (S.serve s r)) requests := rfl

@[simp] theorem run_cons (s : σ) (r : κ) (requests : List κ) :
    S.run s (r :: requests) = S.serve s r :: S.run (S.next (S.serve s r)) requests := rfl

/-- What comes of a request of a run comes of it after the run of those before it. -/
theorem exists_of_mem_run {t : τ} (ht : t ∈ S.run s requests) :
    ∃ before r later, requests = before ++ r :: later ∧ t = S.serve (S.finish s before) r := by
  induction requests generalizing s with
  | nil => cases ht
  | cons r requests ih =>
    rcases List.mem_cons.1 ht with rfl | ht
    · exact ⟨[], r, requests, rfl, rfl⟩
    · obtain ⟨before, r', later, rfl, rfl⟩ := ih ht
      exact ⟨r :: before, r', later, rfl, rfl⟩

/-- What every request keeps holds after a run. -/
theorem finish_induction {P : σ → Prop} (hs : P s)
    (hserve : ∀ r ∈ requests, ∀ s, P s → P (S.next (S.serve s r))) : P (S.finish s requests) := by
  induction requests generalizing s with
  | nil => exact hs
  | cons r requests ih =>
    obtain ⟨hr, hrequests⟩ := List.forall_mem_cons.1 hserve
    exact ih (hr s hs) hrequests

/-- Requests that leave the state as it is may as well not have been made: what comes of the others
is the same without them. Here `P` is true of every state that can be reached. -/
theorem run_filter {P : σ → Prop} (hs : P s) (hserve : ∀ s r, P s → P (S.next (S.serve s r)))
    {request : τ → κ} (hrequest : ∀ s r, request (S.serve s r) = r) {kept : τ → Bool}
    (hkept : ∀ s r, P s → kept (S.serve s r) = false → S.next (S.serve s r) = s) :
    S.run s (((S.run s requests).filter kept).map request) = (S.run s requests).filter kept ∧
      S.finish s (((S.run s requests).filter kept).map request) = S.finish s requests := by
  induction requests generalizing s with
  | nil => exact ⟨rfl, rfl⟩
  | cons r requests ih =>
    obtain ⟨hrun, hfinish⟩ := ih (hserve s r hs)
    rw [run_cons, finish_cons]
    cases h : kept (S.serve s r) with
    | true =>
      rw [List.filter_cons_of_pos h, List.map_cons, hrequest, run_cons, finish_cons, hrun]
      exact ⟨rfl, hfinish⟩
    | false =>
      have hsame := hkept s r hs h
      rw [List.filter_cons_of_neg (Bool.eq_false_iff.1 h)]
      rw [hsame] at hrun hfinish ⊢
      exact ⟨hrun, hfinish⟩

end Service

end HostServices
