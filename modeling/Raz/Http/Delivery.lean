import Raz.Http.Injection
import Raz.Http.Pipelining

/-!
# Requests from a writer to a server

Result: `delivered`: a server shows the requests that are written on a connection.
-/

namespace Raz.Http

open List

/-- A request of the writers, with a body behind its head and fields that say so. -/
structure Sent (request : Request) : Prop where
  written : ∃ fields, request.head =
      writtenHead request.head.method request.head.target fields ∧
    writeRequest request.head.method request.head.target fields = some request.head.text
  target : ∀ b ∈ request.head.target, 32 < b ∧ b ≠ 127
  frames : Frames request.head.fields request.body
  body : request.body.WellFormed
  present : request.body ≠ .absent

theorem Sent.wellFormed {request : Request} (h : Sent request) : request.WellFormed := by
  obtain ⟨fields, hhead, hwrite⟩ := h.written
  obtain ⟨hmethod, htoken, htarget, hfields, -⟩ := writeRequest_text hwrite
  refine ⟨⟨hmethod, htoken, htarget, ?_, by rw [hhead]; rfl, fun field hmem => ?_⟩,
    h.frames, h.body⟩
  · simpa [isTargetByte, UInt8.not_le] using h.target
  · rw [hhead] at hmem
    obtain ⟨field, hfield, rfl⟩ := mem_map.mp hmem
    exact isField_written (hfields field hfield)

/-- Requests with bodies find the connection clear, if all that is to come is within the limit. -/
theorem clear_of_present {maxHeaderBytes maxBodyBytes : Int} : ∀ {requests : List Request}
    {bytes : List UInt8} {receives : List (List UInt8)},
    (∀ request ∈ requests, request.body ≠ .absent) →
    ((bytes ++ receives.flatten).length : Int) ≤ readableLimit maxHeaderBytes maxBodyBytes →
    Clear maxHeaderBytes maxBodyBytes requests bytes receives
  | [], _, _, _, _ => trivial
  | request :: requests, bytes, receives, hpresent, hlimit => by
    rw [forall_mem_cons] at hpresent
    have hstream := congrArg List.length
      (Framing.arrive_flatten request.text.length receives bytes)
    rw [length_append] at hstream
    refine ⟨⟨by omega, fun h => absurd h hpresent.1⟩, clear_of_present hpresent.2 ?_⟩
    rw [length_append, length_drop]
    omega

/-- **The server shows written requests with bodies one by one, however they arrive**, as long as
their bytes are within what it lets the buffer hold. -/
theorem delivered {connection : ServerConnection} {requests : List Request}
    {receives : List (List UInt8)} (hready : Ready connection)
    (hreceives : Receives connection receives) (hsent : ∀ request ∈ requests, Sent request)
    (hwithin : ∀ request ∈ requests,
      request.Within connection.maxHeaderBytes connection.maxBodyBytes)
    (hlimit : ((connection.input.readable ++ receives.flatten).length : Int) ≤
      readableLimit connection.maxHeaderBytes connection.maxBodyBytes)
    (hstream : connection.input.readable ++ receives.flatten = requests.flatMap Request.text) :
    Served requests (serve requests.length connection receives) :=
  (serve_ready requests (fun request h => (hsent request h).wellFormed) hwithin hready rfl rfl
    hreceives hstream).mpr (clear_of_present (fun request h => (hsent request h).present) hlimit)

/-- `POST /` with a body of two bytes, as `append_header` writes the length. -/
def postRequest : Request :=
  ⟨writtenHead [80, 79, 83, 84] [47] [(contentLengthName, [50])], .length [104, 105]⟩

theorem postRequest_sent : Sent postRequest where
  written := ⟨[(contentLengthName, [50])], rfl, by decide⟩
  target := by
    rintro b hb
    obtain rfl := mem_singleton.mp hb
    decide
  frames := by
    refine ⟨⟨_, List.mem_singleton_self _, by decide⟩, fun field hmem => ?_⟩
    obtain rfl := mem_singleton.mp hmem
    exact ⟨by decide, fun _ => ⟨by decide, by decide, by decide⟩⟩
  body := trivial
  present := by simp [postRequest]

/-- Two requests, of which the second begins in the first piece. -/
theorem delivered_twice : Served [postRequest, postRequest]
    (serve 2 (accepted 1024 1024 4096 4096)
      [postRequest.text ++ [80], postRequest.text.tail]) :=
  @delivered _ [postRequest, postRequest] _ ⟨rfl, rfl, rfl⟩ ⟨by decide, by decide⟩
    (by simp [postRequest_sent]) (by simpa using ⟨by decide, by decide⟩) (by decide) rfl

end Raz.Http
