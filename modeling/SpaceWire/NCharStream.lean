import SpaceWire.Progress

namespace SpaceWire.NCharStream

open Accounting Traffic Conservation

def Keeps (s s' : System) : Prop :=
  ∀ x, (s'.ends x).link.errorResetCount = (s.ends x).link.errorResetCount

/-- What two links keep while neither is dropped, whatever has been before. -/
structure Sound (s : System) : Prop where
  clean : ∀ x, Clean (s.ends x)
  solvent : Solvent s

/-- The N-Chars of `x` that its peer has taken, that are on the line and that are pending. -/
def stream (s : System) (x : Side) : List Character :=
  taken (s.ends x.peer) ++ (s.line x).filter Character.isNChar ++ pending (s.ends x)

variable {s : System} {x : Side} {t : Turn}

theorem healthy_sound (h : Healthy s) : Sound s := ⟨h.clean, h.solvent⟩

theorem undropped_keeps (hu : Undropped (s.step t)) : Keeps s (s.step t) :=
  fun x => (hu x).trans (hu.of_step x).symm

theorem Sound.step (h : Sound s) (ht : t.lossless = true) (hk : Keeps s (s.step t)) :
    Sound (s.step t) := by
  cases t with
  | act x a =>
    have hcount := hk x
    rw [System.step_act_ends] at hcount
    refine ⟨(Side.forall_iff x).mpr ⟨?_, ?_⟩, h.solvent.act hcount⟩
    · rw [System.step_act_ends]
      exact act_clean (h.clean x) ht
    · rw [System.step_act_ends_peer]
      exact h.clean x.peer
  | deliver x =>
    simp only [System.step] at hk ⊢
    split at hk
    · exact h
    · rename_i c rest hline
      have hcount := hk x.peer
      rw [System.receive_ends_peer] at hcount
      refine ⟨(Side.forall_iff x).mpr ⟨?_, ?_⟩, h.solvent.receive hline hcount⟩
      · rw [System.receive_ends]
        exact h.clean x
      · rw [System.receive_ends_peer]
        apply rxCharacter_clean (h.clean x.peer)
        exact fun _ => LineChar.packetChar (h.solvent.line x c (by simp [hline]))
  | lose | noise => cases ht

theorem Sound.stream_step (h : Sound s) (ht : t.lossless = true) (hk : Keeps s (s.step t))
    (x : Side) : ∃ extra, ((s.step t).ends x).sent = (s.ends x).sent ++ extra ∧
      stream (s.step t) x = stream s x ++ extra.flatMap SpaceWirePacket.nchars := by
  cases t with
  | act y a =>
    obtain ⟨extra, hsent, hstream⟩ := act_stream (h.clean y) ht
    obtain rfl | rfl := y.eq_or_eq_peer x
    · refine ⟨extra, by rw [System.step_act_ends, hsent], ?_⟩
      simp only [stream, System.step_act_ends, System.step_act_ends_peer, System.step_act_line,
        List.filter_append, List.append_assoc, hstream]
    · refine ⟨[], by simp, ?_⟩
      simp [stream, act_taken (h.clean y)]
  | deliver y =>
    refine ⟨[], ?_⟩
    simp only [System.step] at hk ⊢
    split at hk
    · simp
    · rename_i c rest hline
      have hcount := hk y.peer
      rw [System.receive_ends_peer] at hcount
      obtain ⟨hroom, hpos⟩ := h.solvent.head_bounds hline
      have hc := h.solvent.line y c (by simp [hline])
      obtain ⟨-, -, hqueue⟩ := rx_lineChar hc (h.solvent.credit y.peer) hroom hpos hcount
      have hsplit : s.line y = [c] ++ rest := hline
      obtain rfl | rfl := y.eq_or_eq_peer x
      · refine ⟨by simp, ?_⟩
        simp [stream, taken, hsplit, Endpoint.rxCharacter, hqueue]
        rw [← List.append_assoc, ← List.filter_append, List.singleton_append]
      · refine ⟨by simp [Endpoint.rxCharacter], ?_⟩
        simp [stream, pending, Endpoint.rxCharacter, (rxCharacter_queues _ c).1]
  | lose | noise => cases ht

/-- What has been sent since some point, when the stream was `before`. -/
def Since (before : Side → List Character) (sent : Side → List SpaceWirePacket) (s : System) :
    Prop :=
  ∀ x, ∃ extra, (s.ends x).sent = sent x ++ extra ∧
    stream s x = before x ++ extra.flatMap SpaceWirePacket.nchars

theorem Since.refl (s : System) : Since (stream s) (fun x => (s.ends x).sent) s :=
  fun _ => ⟨[], by simp, by simp⟩

theorem Since.step {before : Side → List Character} {sent : Side → List SpaceWirePacket}
    (h : Since before sent s) (hs : Sound s) (ht : t.lossless = true)
    (hk : Keeps s (s.step t)) : Since before sent (s.step t) := by
  intro x
  obtain ⟨extra, hsent, hstream⟩ := h x
  obtain ⟨more, hsent', hstream'⟩ := hs.stream_step ht hk x
  refine ⟨extra ++ more, ?_, ?_⟩
  · rw [hsent', hsent, List.append_assoc]
  · rw [hstream', hstream, List.flatMap_append, List.append_assoc]

theorem received_of_taken {p : Endpoint} {sent : List SpaceWirePacket}
    (h : taken p = sent.flatMap SpaceWirePacket.nchars) (hread : p.link.rxNcharQueue = []) :
    p.received = sent := by
  rw [taken, hread, List.append_nil] at h
  have hle := prefix_of_nchars (s := []) (by simp) (by rw [h, List.append_nil])
  have hge := prefix_of_nchars (r := []) (s := p.recvData.map dataChar)
    (by simp [isTerminator, dataChar]) (by rw [List.append_nil, h])
  exact hle.eq_of_length_le hge.length_le

end SpaceWire.NCharStream
