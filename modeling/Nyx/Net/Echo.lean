import Nyx.Net.Ownership

/-! The echo service: what its poll leaves in the queue of its listener. -/
namespace Nyx.Net
open Host

def Stack.unaccepted (s : Stack) : Finset ConnId := {i | (s.conns i).accepted = false}

theorem echoAdopt_stack (h : Host) (l : ConnId) :
    (h.echoAdopt l).1.stack = (h.stack.tcpAccept l).1 ∧
      (h.echoAdopt l).2 = (h.stack.tcpAccept l).2.isSome := by
  unfold echoAdopt
  dsimp only
  split
  case h_1 hnone => exact ⟨rfl, by rw [hnone]; rfl⟩
  case h_2 hsome =>
    rw [hsome]
    split <;> exact ⟨rfl, rfl⟩

/-- The loop ends because there is nothing left to accept, and not for want of fuel. -/
theorem echoAdoptAll_done {h : Host} {l : ConnId} {fuel : Nat}
    (hfuel : h.stack.unaccepted.card < fuel) :
    ((h.echoAdoptAll l fuel).stack.tcpAccept l).2 = none := by
  induction fuel generalizing h with
  | zero => exact absurd hfuel (Nat.not_lt_zero _)
  | succ fuel ih =>
    obtain ⟨hstack, hmore⟩ := echoAdopt_stack h l
    rw [echoAdoptAll]
    rcases tcpAccept_eq (s := h.stack) (l := l) with ⟨hnone, hsame⟩ | ⟨c, hsome, -, hconns, -⟩
    · rw [if_neg (by rw [hmore, hnone]; exact Bool.false_ne_true), hstack, hsame, hnone]
    rw [if_pos (by rw [hmore, hsome]; rfl)]
    refine ih ?_
    have hc : c ∈ h.stack.unaccepted := by
      simpa [Stack.unaccepted] using (tcpAccept_some hsome).2.1
    have herase : (h.echoAdopt l).1.stack.unaccepted = h.stack.unaccepted.erase c := by
      ext i
      rw [hstack]
      simp only [Stack.unaccepted, hconns, Finset.mem_filter, Finset.mem_univ, true_and,
        Finset.mem_erase]
      by_cases hi : i = c
      · subst hi
        simp
      rw [Function.update_of_ne hi]
      simp [hi]
    rw [herase, Finset.card_erase_of_mem hc]
    have := Finset.card_pos.mpr ⟨c, hc⟩
    omega

/-- The loop over `tcp_accept` leaves nothing to accept. -/
theorem echoAdoptAll_drains (h : Host) (l : ConnId) :
    ((h.echoAdoptAll l (tcpMaxConns + 1)).stack.tcpAccept l).2 = none :=
  echoAdoptAll_done (Nat.lt_succ_of_le ((Finset.card_le_univ _).trans_eq (Fintype.card_fin _)))

end Nyx.Net
