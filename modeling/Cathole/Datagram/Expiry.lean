import Cathole.Datagram.Input

/-!
# The expiry ticks

The session loops of both sides call `expire` on their reassembler every second,
and `push` calls it as well, but not for every fragment. Two reassemblers that
are the same once both are expired at some time stay so from then on: a push
that looks at the table expires it first, and one that does not look at it does
not change it either. So a run with ticks can be compared with the run without
them, push by push.
-/

namespace Cathole

namespace Input

def time : Input → Nat
  | push _ now => now
  | expire now => now

def isPush : Input → Bool
  | push .. => true
  | expire _ => false

end Input

namespace Reassembler

def results : Reassembler → List Input → List (Except Fault (Option Packet))
  | _, [] => []
  | r, .push p now :: rest => (r.pushChecked p now).1 :: results (r.step (.push p now)) rest
  | r, .expire now :: rest => results (r.step (.expire now)) rest

variable {r r' : Reassembler}

theorem expire_expire (h : s ≤ t) : (r.expire s).expire t = r.expire t := by
  have hkeep : ∀ created, t - created < lifetime → s - created < lifetime :=
    fun created hlive => (Nat.sub_le_sub_right h created).trans_lt hlive
  simp only [expire, Reassembler.mk.injEq]
  apply AList.ext
  simp only [AList.retain, List.filter_filter]
  apply List.filter_congr
  intro e _
  simpa using hkeep e.2.created

theorem expire_of_agree (h : r.expire s = r'.expire s) (hle : s ≤ t) :
    r.expire t = r'.expire t := by
  rw [← expire_expire hle, h, expire_expire hle]

/-- A push does not tell the two apart, and leaves them the same once expired. -/
theorem push_of_agree (h : r.expire now = r'.expire now) (p : Bytes) :
    (r.push p now).1 = (r'.push p now).1 ∧
      (r.push p now).2.expire now = (r'.push p now).2.expire now := by
  unfold push
  split
  · exact ⟨rfl, h⟩
  · rename_i f _
    split
    · exact ⟨rfl, h⟩
    · have hassemble : r.assemble f now = r'.assemble f now := by
        rw [assemble, h, assemble]
      rw [hassemble]
      exact ⟨rfl, rfl⟩

theorem run_of_agree (hwf : r.Wf) (hwf' : r'.Wf) (hagree : r.expire s = r'.expire s)
    (inputs : List Input) (horder : inputs.Pairwise fun a b => a.time ≤ b.time)
    (hstart : ∀ input ∈ inputs, s ≤ input.time) :
    r.results inputs = r'.results (inputs.filter Input.isPush) ∧
      ∀ t, s ≤ t → (∀ input ∈ inputs, input.time ≤ t) →
        (inputs.foldl step r).expire t = ((inputs.filter Input.isPush).foldl step r').expire t := by
  induction inputs generalizing r r' s with
  | nil => exact ⟨rfl, fun t hle _ => expire_of_agree hagree hle⟩
  | cons input rest ih =>
    obtain ⟨hlater, hrest⟩ := List.pairwise_cons.mp horder
    have hnow := expire_of_agree hagree (hstart input List.mem_cons_self)
    cases input with
    | push p now =>
      dsimp only [Input.time] at hnow
      obtain ⟨hresult, hnext⟩ := push_of_agree hnow p
      have hstep : r.step (.push p now) = (r.push p now).2 := by rw [step, pushChecked_eq hwf]
      have hstep' : r'.step (.push p now) = (r'.push p now).2 := by rw [step, pushChecked_eq hwf']
      rw [← hstep, ← hstep'] at hnext
      obtain ⟨hresults, hfinal⟩ :=
        ih (hwf.step (.push p now)) (hwf'.step (.push p now)) hnext hrest hlater
      constructor
      · rw [List.filter_cons_of_pos (by rfl), results, results, pushChecked_eq hwf,
          pushChecked_eq hwf', hresult, hresults]
      · intro t _ hend
        obtain ⟨hle, hend⟩ := List.forall_mem_cons.mp hend
        exact hfinal t hle hend
    | expire now =>
      have hnext : (r.step (.expire now)).expire now = r'.expire now := by
        rw [step, expire_expire (Nat.le_refl now)]
        exact hnow
      obtain ⟨hresults, hfinal⟩ := ih (hwf.step (.expire now)) hwf' hnext hrest hlater
      constructor
      · rw [List.filter_cons_of_neg (by simp [Input.isPush]), results]
        exact hresults
      · intro t _ hend
        obtain ⟨hle, hend⟩ := List.forall_mem_cons.mp hend
        exact hfinal t hle hend

theorem time_le_of_last {inputs : List Input} (horder : inputs.Pairwise fun a b => a.time ≤ b.time)
    (hlast : ∀ last ∈ inputs.getLast?, last.time ≤ t) : ∀ input ∈ inputs, input.time ≤ t := by
  rcases List.eq_nil_or_concat' inputs with rfl | ⟨front, last, rfl⟩
  · simp
  · have hend : last.time ≤ t := hlast last (by simp)
    intro input hinput
    rcases List.mem_append.mp hinput with hinput | hinput
    · exact ((List.pairwise_append.mp horder).2.2 input hinput last List.mem_cons_self).trans hend
    · rwa [List.mem_singleton.mp hinput]

/-- Calls of `push` and `expire` in the order of their times: without the
`expire` calls, every push returns the same. One `expire` more, not before the
last of the calls, leaves the same reassembler behind. -/
theorem expiry_unobservable (inputs : List Input)
    (horder : inputs.Pairwise fun a b => a.time ≤ b.time) :
    default.results inputs = default.results (inputs.filter Input.isPush) ∧
      ∀ t, (∀ last ∈ inputs.getLast?, last.time ≤ t) →
        (run inputs).expire t = (run (inputs.filter Input.isPush)).expire t := by
  obtain ⟨hresults, hfinal⟩ := run_of_agree wf_default wf_default (s := 0) rfl inputs horder
    fun input _ => Nat.zero_le input.time
  exact ⟨hresults, fun t hlast => hfinal t (Nat.zero_le t) (time_le_of_last horder hlast)⟩

/-- A tick between the two fragments of a message, and one when the message
would have expired. -/
theorem expiry_unobservable_two_fragments :
    let m : Message := ⟨3, 4, 5, List.replicate 1500 7⟩
    let pushes := [Input.push (m.fragment 0) 0, Input.push (m.fragment 1) 1_500_000_000]
    default.results
        [.push (m.fragment 0) 0, .expire 1_000_000_000, .push (m.fragment 1) 1_500_000_000] =
        default.results pushes ∧
      (run [.push (m.fragment 0) 0, .expire 1_000_000_000,
          .push (m.fragment 1) 1_500_000_000]).expire 2_000_000_000 =
        (run pushes).expire 2_000_000_000 := by
  intro m pushes
  obtain ⟨hresults, hfinal⟩ := expiry_unobservable
    [.push (m.fragment 0) 0, .expire 1_000_000_000, .push (m.fragment 1) 1_500_000_000]
    (by simp [Input.time])
  exact ⟨hresults, hfinal 2_000_000_000 (by simp [Input.time])⟩

end Reassembler

end Cathole
