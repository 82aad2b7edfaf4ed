import SpaceWire.Conservation
import Mathlib.Data.List.Forall2

namespace SpaceWire.Resets

open Accounting Traffic Run

/-- What became of the N-Chars one side put on the line: whether a packet has left the line in
part, whether its peer holds an unfinished packet, whether that packet is torn by a loss or by an
N-Char that was never on the line, for each packet the peer has completed whether it was, and how
many N-Chars it has taken that were never on the line. -/
structure Audit where
  begun : Bool := false
  unfinished : Bool := false
  torn : Bool := false
  verdicts : List Bool := []
  forged : Nat := 0

/-- The peer puts an N-Char in its receive queue. -/
def Audit.take (g : Audit) (c : Character) : Audit :=
  if isTerminator c then
    { g with verdicts := g.verdicts ++ [g.torn]
             begun := false, unfinished := false, torn := false }
  else { g with begun := true, unfinished := true }

/-- An N-Char never gets there. A packet lost to its terminator tears the packet that the
peer has begun, if there is one; nothing else of it is left. -/
def Audit.miss (g : Audit) (c : Character) : Audit :=
  if isTerminator c then { g with begun := false, torn := g.unfinished }
  else { g with begun := true, torn := true }

/-- The peer puts an N-Char in its receive queue that was never on the line. A terminator ends
the packet that the peer has begun, and what is still to come of a packet is torn. -/
def Audit.forge (g : Audit) (c : Character) : Audit :=
  if isTerminator c then
    { g with verdicts := g.verdicts ++ [true], unfinished := false, torn := g.begun
             forged := g.forged + 1 }
  else { g with unfinished := true, torn := true, forged := g.forged + 1 }

structure Watched where
  sys : System
  audit : Side → Audit := fun _ => {}

/-- The character that leaves a line in a turn, and the side that had put it there. -/
def leaving (s : System) : Turn → Option (Side × Character)
  | .act _ _ | .noise _ _ => none
  | .deliver x | .lose x => (s.line x).head?.map fun c => (x, c)

/-- The peer of `x` has taken an N-Char in a turn. -/
def takes (s s' : System) (x : Side) : Bool :=
  (s.ends x.peer).link.rxNcharQueue.length < (s'.ends x.peer).link.rxNcharQueue.length

def Watched.step (w : Watched) (t : Turn) : Watched :=
  { sys := w.sys.step t
    audit := match t with
      | .act _ _ => w.audit
      | .noise x n =>
        if takes w.sys (w.sys.step t) x then
          Function.update w.audit x ((w.audit x).forge n.heard)
        else w.audit
      | .deliver _ | .lose _ =>
        match leaving w.sys t with
        | none => w.audit
        | some (x, c) =>
          if c.isNChar then
            Function.update w.audit x
              (if takes w.sys (w.sys.step t) x then (w.audit x).take c else (w.audit x).miss c)
          else w.audit }

/-- Where the N-Chars of `x` are: those of whole packets and of a packet begun have left the
line, and whole packets and a packet begun are in the queue of its peer. The N-Chars of these are
`genuine`, which have left the line in this order, and those that were never on it. -/
structure Split (x : Side) (s : System) (g : Audit) (gone : List SpaceWirePacket)
    (begun : List Character) (done : List SpaceWirePacket) (collected genuine : List Character) :
    Prop where
  sent : gone.flatMap SpaceWirePacket.nchars ++ begun ++ (s.line x).filter Character.isNChar ++
    pending (s.ends x) = (s.ends x).sent.flatMap SpaceWirePacket.nchars
  taken : taken (s.ends x.peer) = done.flatMap SpaceWirePacket.nchars ++ collected
  begunChars : ∀ c ∈ begun, PacketChar c ∧ isTerminator c = false
  collectedChars : ∀ c ∈ collected, PacketChar c ∧ isTerminator c = false
  between : g.begun = false → begun = []
  unfinished : g.unfinished = false → collected = []
  whole : g.torn = false → begun = collected
  verdicts : List.Forall₂ (fun pkt torn => torn = false → pkt ∈ (s.ends x).sent) done g.verdicts
  left : genuine.Sublist (gone.flatMap SpaceWirePacket.nchars ++ begun)
  kept : genuine.Sublist (Traffic.taken (s.ends x.peer))
  counted : (Traffic.taken (s.ends x.peer)).length = genuine.length + g.forged

theorem exists_packet {cs : List Character} {c : Character}
    (hcs : ∀ d ∈ cs, PacketChar d ∧ isTerminator d = false) (hc : PacketChar c)
    (hend : isTerminator c = true) : ∃ pkt : SpaceWirePacket, pkt.nchars = cs ++ [c] := by
  have hdata : ∃ bytes : List Int, (∀ b ∈ bytes, 0 ≤ b ∧ b ≤ 0xFF) ∧ bytes.map dataChar = cs := by
    induction cs with
    | nil => exact ⟨[], by simp, rfl⟩
    | cons d cs ih =>
      obtain ⟨bytes, hbytes, rfl⟩ := ih fun e he => hcs e (by simp [he])
      obtain ⟨hd, hnot⟩ := hcs d (by simp)
      cases hd with
      | @data b hb => exact ⟨b :: bytes, by simpa [hb] using hbytes, rfl⟩
      | eop | eep => cases hnot
  obtain ⟨bytes, hbytes, rfl⟩ := hdata
  cases hc with
  | data => cases hend
  | eop => exact ⟨⟨bytes, .eop, hbytes⟩, rfl⟩
  | eep => exact ⟨⟨bytes, .eep, hbytes⟩, rfl⟩

def Audited (x : Side) (s : System) (g : Audit) : Prop :=
  ∃ gone begun done collected genuine, Split x s g gone begun done collected genuine

variable {x : Side} {s s' : System} {g : Audit} {c : Character}

/-- Turns that take nothing off the line of `x` and add nothing to the queue of its peer. -/
theorem Audited.keep (extra : List SpaceWirePacket) (h : Audited x s g)
    (hsent : (s'.ends x).sent = (s.ends x).sent ++ extra)
    (hstream : (s'.line x).filter Character.isNChar ++ pending (s'.ends x) =
      (s.line x).filter Character.isNChar ++ pending (s.ends x) ++
        extra.flatMap SpaceWirePacket.nchars)
    (htaken : taken (s'.ends x.peer) = taken (s.ends x.peer)) : Audited x s' g := by
  obtain ⟨gone, begun, done, collected, genuine, h⟩ := h
  refine ⟨gone, begun, done, collected, genuine, ?_⟩
  exact { h with
    sent := by
      rw [hsent, List.flatMap_append, ← h.sent]
      simp only [List.append_assoc, hstream]
    taken := htaken.trans h.taken
    verdicts := h.verdicts.imp fun pkt torn himp htorn => by simp [hsent, himp htorn]
    kept := htaken ▸ h.kept
    counted := htaken ▸ h.counted }

/-- The rest of the stream of `x` after the N-Char `c` has left the line. -/
structure Departs (x : Side) (s s' : System) (c : Character) : Prop where
  packetChar : PacketChar c
  sent : (s'.ends x).sent = (s.ends x).sent
  stream : (s.line x).filter Character.isNChar ++ pending (s.ends x) =
    c :: ((s'.line x).filter Character.isNChar ++ pending (s'.ends x))

theorem Split.completes {gone done : List SpaceWirePacket}
    {begun collected genuine : List Character}
    (h : Split x s g gone begun done collected genuine) (hd : Departs x s s' c)
    (hend : isTerminator c = true) : ∃ pkt : SpaceWirePacket, pkt.nchars = begun ++ [c] ∧
      pkt ∈ (s.ends x).sent ∧
      (gone ++ [pkt]).flatMap SpaceWirePacket.nchars ++
        ((s'.line x).filter Character.isNChar ++ pending (s'.ends x)) =
          (s.ends x).sent.flatMap SpaceWirePacket.nchars := by
  obtain ⟨pkt, hpkt⟩ := exists_packet h.begunChars hd.packetChar hend
  have hstream : (gone ++ [pkt]).flatMap SpaceWirePacket.nchars ++
      ((s'.line x).filter Character.isNChar ++ pending (s'.ends x)) =
        (s.ends x).sent.flatMap SpaceWirePacket.nchars := by
    rw [← h.sent]
    simp only [List.flatMap_append, List.flatMap_singleton, hpkt, List.append_assoc, hd.stream,
      List.singleton_append]
  refine ⟨pkt, hpkt, ?_, hstream⟩
  have hprefix := prefix_of_nchars (s := []) (by simp)
    (hstream.trans (List.append_nil _).symm)
  exact hprefix.subset (by simp)

theorem Audited.take (h : Audited x s g) (hd : Departs x s s' c)
    (htaken : taken (s'.ends x.peer) = taken (s.ends x.peer) ++ [c]) :
    Audited x s' (g.take c) := by
  obtain ⟨gone, begun, done, collected, genuine, h⟩ := h
  have hkept : (genuine ++ [c]).Sublist (Traffic.taken (s'.ends x.peer)) := by
    rw [htaken]
    exact h.kept.append (.refl [c])
  have hcounted : (Traffic.taken (s'.ends x.peer)).length = (genuine ++ [c]).length + g.forged := by
    rw [htaken, List.length_append, List.length_append, h.counted]
    omega
  cases hend : isTerminator c with
  | true =>
    obtain ⟨pkt, hpkt, hmem, hstream⟩ := h.completes hd hend
    obtain ⟨pkt', hpkt'⟩ := exists_packet h.collectedChars hd.packetChar hend
    refine ⟨gone ++ [pkt], [], done ++ [pkt'], [], genuine ++ [c], ?_⟩
    have hverdict : g.torn = false → pkt' ∈ (s'.ends x).sent := by
      intro htorn
      -- nothing was lost, so the packet completed here is the one completed on the line
      have heq : pkt' = pkt := nchars_injective (by rw [hpkt', hpkt, h.whole htorn])
      rw [heq, hd.sent]
      exact hmem
    exact {
      sent := by
        rw [hd.sent, ← hstream]
        simp
      taken := by
        rw [htaken, h.taken]
        simp [hpkt']
      begunChars := by simp
      collectedChars := by simp
      between := fun _ => rfl
      unfinished := fun _ => rfl
      whole := fun _ => rfl
      verdicts := by
        simp only [Audit.take, hend, if_true]
        rw [hd.sent] at hverdict ⊢
        exact List.rel_append h.verdicts (.cons hverdict .nil)
      left := by
        have hleft : (gone ++ [pkt]).flatMap SpaceWirePacket.nchars ++ [] =
            gone.flatMap SpaceWirePacket.nchars ++ begun ++ [c] := by simp [hpkt]
        rw [hleft]
        exact h.left.append (.refl [c])
      kept := hkept
      counted := by simpa [Audit.take, hend] using hcounted }
  | false =>
    refine ⟨gone, begun ++ [c], done, collected ++ [c], genuine ++ [c], ?_⟩
    have hchars {cs : List Character} (hcs : ∀ d ∈ cs, PacketChar d ∧ isTerminator d = false) :
        ∀ d ∈ cs ++ [c], PacketChar d ∧ isTerminator d = false := by
      intro d hmem
      obtain hmem | hmem := List.mem_append.mp hmem
      · exact hcs d hmem
      · exact List.mem_singleton.mp hmem ▸ ⟨hd.packetChar, hend⟩
    exact {
      sent := by
        rw [hd.sent, ← h.sent]
        simp only [List.append_assoc, hd.stream, List.cons_append, List.nil_append]
      taken := by rw [htaken, h.taken, List.append_assoc]
      begunChars := hchars h.begunChars
      collectedChars := hchars h.collectedChars
      between := by simp [Audit.take, hend]
      unfinished := by simp [Audit.take, hend]
      whole := by simpa [Audit.take, hend] using h.whole
      verdicts := by simpa [Audit.take, hend, hd.sent] using h.verdicts
      left := by
        rw [← List.append_assoc]
        exact h.left.append (.refl [c])
      kept := hkept
      counted := by simpa [Audit.take, hend] using hcounted }

theorem Audited.miss (h : Audited x s g) (hd : Departs x s s' c)
    (htaken : taken (s'.ends x.peer) = taken (s.ends x.peer)) : Audited x s' (g.miss c) := by
  obtain ⟨gone, begun, done, collected, genuine, h⟩ := h
  have hforged : (g.miss c).forged = g.forged := by
    unfold Audit.miss
    split <;> rfl
  have hcounted : (Traffic.taken (s'.ends x.peer)).length =
      genuine.length + (g.miss c).forged := by
    rw [htaken, hforged]
    exact h.counted
  cases hend : isTerminator c with
  | true =>
    obtain ⟨pkt, hpkt, -, hstream⟩ := h.completes hd hend
    refine ⟨gone ++ [pkt], [], done, collected, genuine, ?_⟩
    exact {
      sent := by
        rw [hd.sent, ← hstream]
        simp
      taken := htaken.trans h.taken
      begunChars := by simp
      collectedChars := h.collectedChars
      between := fun _ => rfl
      unfinished := by simpa [Audit.miss, hend] using h.unfinished
      whole := fun htorn => (h.unfinished (by simpa [Audit.miss, hend] using htorn)).symm
      verdicts := by simpa [Audit.miss, hend, hd.sent] using h.verdicts
      left := by
        have hleft : (gone ++ [pkt]).flatMap SpaceWirePacket.nchars ++ [] =
            gone.flatMap SpaceWirePacket.nchars ++ begun ++ [c] := by simp [hpkt]
        rw [hleft]
        exact h.left.trans (List.sublist_append_left _ _)
      kept := htaken ▸ h.kept
      counted := hcounted }
  | false =>
    refine ⟨gone, begun ++ [c], done, collected, genuine, ?_⟩
    exact {
      sent := by
        rw [hd.sent, ← h.sent]
        simp only [List.append_assoc, hd.stream, List.cons_append, List.nil_append]
      taken := htaken.trans h.taken
      begunChars := by
        intro d hmem
        obtain hmem | hmem := List.mem_append.mp hmem
        · exact h.begunChars d hmem
        · exact List.mem_singleton.mp hmem ▸ ⟨hd.packetChar, hend⟩
      collectedChars := h.collectedChars
      between := by simp [Audit.miss, hend]
      unfinished := by simpa [Audit.miss, hend] using h.unfinished
      whole := by simp [Audit.miss, hend]
      verdicts := by simpa [Audit.miss, hend, hd.sent] using h.verdicts
      left := by
        rw [← List.append_assoc]
        exact h.left.trans (List.sublist_append_left _ _)
      kept := htaken ▸ h.kept
      counted := hcounted }

theorem Audited.forge (h : Audited x s g) (hc : PacketChar c) (hends : s'.ends x = s.ends x)
    (hline : s'.line x = s.line x)
    (htaken : taken (s'.ends x.peer) = taken (s.ends x.peer) ++ [c]) :
    Audited x s' (g.forge c) := by
  obtain ⟨gone, begun, done, collected, genuine, h⟩ := h
  have hsent : gone.flatMap SpaceWirePacket.nchars ++ begun ++
      (s'.line x).filter Character.isNChar ++ pending (s'.ends x) =
        (s'.ends x).sent.flatMap SpaceWirePacket.nchars := by
    rw [hends, hline]
    exact h.sent
  have hkept : genuine.Sublist (Traffic.taken (s'.ends x.peer)) := by
    rw [htaken]
    exact h.kept.trans (List.sublist_append_left _ _)
  have hforged : (g.forge c).forged = g.forged + 1 := by
    unfold Audit.forge
    split <;> rfl
  have hcounted : (Traffic.taken (s'.ends x.peer)).length =
      genuine.length + (g.forge c).forged := by
    rw [htaken, hforged, List.length_append, h.counted, Nat.add_assoc]
    rfl
  cases hend : isTerminator c with
  | true =>
    obtain ⟨pkt, hpkt⟩ := exists_packet h.collectedChars hc hend
    refine ⟨gone, begun, done ++ [pkt], [], genuine, ?_⟩
    exact {
      sent := hsent
      taken := by
        rw [htaken, h.taken]
        simp [hpkt]
      begunChars := h.begunChars
      collectedChars := by simp
      between := by simpa [Audit.forge, hend] using h.between
      unfinished := fun _ => rfl
      whole := by simpa [Audit.forge, hend] using h.between
      verdicts := by
        simp only [Audit.forge, hend, if_true, hends]
        exact List.rel_append h.verdicts (.cons (by simp) .nil)
      left := h.left
      kept := hkept
      counted := hcounted }
  | false =>
    refine ⟨gone, begun, done, collected ++ [c], genuine, ?_⟩
    exact {
      sent := hsent
      taken := by rw [htaken, h.taken, List.append_assoc]
      begunChars := h.begunChars
      collectedChars := by
        intro d hmem
        obtain hmem | hmem := List.mem_append.mp hmem
        · exact h.collectedChars d hmem
        · exact List.mem_singleton.mp hmem ▸ ⟨hc, hend⟩
      between := by simpa [Audit.forge, hend] using h.between
      unfinished := by simp [Audit.forge, hend]
      whole := by simp [Audit.forge, hend]
      verdicts := by simpa [Audit.forge, hend, hends] using h.verdicts
      left := h.left
      kept := hkept
      counted := hcounted }

/-- The peer when `c` leaves the line: it has not noticed, or it has received `c`. -/
inductive Landed (p : Endpoint) (c : Character) : Endpoint → Prop
  | lost : Landed p c p
  | received : Landed p c (p.rxCharacter c)

theorem Landed.clean {p p' : Endpoint} (h : Landed p c p') (hp : Clean p) (hc : LineChar c) :
    Clean p' := by
  cases h with
  | lost => exact hp
  | received => exact rxCharacter_clean hp fun _ => LineChar.packetChar hc

theorem rxCharacter_stream (p : Endpoint) (c : Character) :
    (p.rxCharacter c).sent = p.sent ∧ pending (p.rxCharacter c) = pending p := by
  simp [pending, Endpoint.rxCharacter, (rxCharacter_queues _ _).1]

theorem Landed.stream {p p' : Endpoint} (h : Landed p c p') :
    p'.sent = p.sent ∧ pending p' = pending p := by
  cases h with
  | lost => exact ⟨rfl, rfl⟩
  | received => exact rxCharacter_stream p c

theorem rxCharacter_taken (p : Endpoint) (c : Character) :
    taken (p.rxCharacter c) = taken p ∧
        (p.rxCharacter c).link.rxNcharQueue.length = p.link.rxNcharQueue.length ∨
      (isHardError c.error = false ∧ c.isNChar = true) ∧ taken (p.rxCharacter c) = taken p ++ [c] ∧
        p.link.rxNcharQueue.length < (p.rxCharacter c).link.rxNcharQueue.length := by
  obtain hq | ⟨herr, hn, hq⟩ := (rxCharacter_queues p.link c).2
  · exact .inl (by simp [Traffic.taken, Endpoint.rxCharacter, hq])
  · exact .inr (by simp [Traffic.taken, Endpoint.rxCharacter, hq, hn, herr])

theorem Landed.taken {p p' : Endpoint} (h : Landed p c p') :
    taken p' = taken p ∧ p'.link.rxNcharQueue.length = p.link.rxNcharQueue.length ∨
      c.isNChar = true ∧ taken p' = taken p ++ [c] ∧
        p.link.rxNcharQueue.length < p'.link.rxNcharQueue.length := by
  cases h with
  | lost => exact .inl ⟨rfl, rfl⟩
  | received => exact (rxCharacter_taken p c).imp id fun ⟨hc, h⟩ => ⟨hc.2, h⟩

theorem leaving_some {t : Turn} (h : leaving s t = some (x, c)) :
    ∃ rest, s.line x = c :: rest ∧ (s.step t).line x = rest ∧
      (s.step t).line x.peer = s.line x.peer ∧ (s.step t).ends x = s.ends x ∧
      Landed (s.ends x.peer) c ((s.step t).ends x.peer) := by
  have hhead {y : Side} (hy : (s.line y).head?.map (fun c => (y, c)) = some (x, c)) :
      y = x ∧ ∃ rest, s.line x = c :: rest := by
    cases hl : s.line y with
    | nil => simp [hl] at hy
    | cons d rest =>
      simp only [hl, List.head?_cons, Option.map_some, Option.some.injEq, Prod.mk.injEq] at hy
      obtain ⟨rfl, rfl⟩ := hy
      exact ⟨rfl, rest, hl⟩
  cases t with
  | act y a | noise y n => cases h
  | deliver y =>
    obtain ⟨rfl, rest, hl⟩ := hhead h
    refine ⟨rest, hl, ?_⟩
    simp only [System.step, hl]
    exact ⟨by simp [hl], by simp, by simp, by simpa using .received⟩
  | lose y =>
    obtain ⟨rfl, rest, hl⟩ := hhead h
    refine ⟨rest, hl, ?_⟩
    simp only [System.step]
    exact ⟨by simp [hl], by simp, trivial, .lost⟩

theorem leaving_none {t : Turn} (h : leaving s t = none) :
    (∃ y a, t = .act y a) ∨ (∃ y n, t = .noise y n) ∨ s.step t = s := by
  have hnil {y : Side} (hy : (s.line y).head?.map (fun c => (y, c)) = none) : s.line y = [] := by
    simpa using hy
  cases t with
  | act y a => exact .inl ⟨y, a, rfl⟩
  | noise y n => exact .inr (.inl ⟨y, n, rfl⟩)
  | deliver y => exact .inr (.inr (by simp [System.step, hnil h]))
  | lose y =>
    have hy := hnil h
    exact .inr (.inr (by rw [System.step, hy, List.tail_nil, ← hy, Function.update_eq_self]))

structure WatchedInv (w : Watched) : Prop where
  clean : ∀ x, Clean (w.sys.ends x)
  line : ∀ x, ∀ c ∈ w.sys.line x, LineChar c
  audited : ∀ x, Audited x w.sys (w.audit x)

/-- Packets are handed to the links as a whole; anything may happen to the lines. -/
def packetLevel : Turn → Bool
  | .act _ a => a.packetLevel
  | _ => true

variable {w : Watched} {t : Turn}

theorem WatchedInv.act {a : Action} (h : WatchedInv w) (ha : a.packetLevel = true) :
    WatchedInv (w.step (.act x a)) := by
  have hclean := h.clean x
  obtain ⟨extra, hsent, hstream⟩ := act_stream hclean ha
  refine ⟨?_, ?_, ?_⟩
  · refine (Side.forall_iff x).mpr ⟨?_, by simpa [Watched.step] using h.clean x.peer⟩
    simpa [Watched.step] using act_clean hclean ha
  · refine (Side.forall_iff x).mpr ⟨fun c hc => ?_, by simpa [Watched.step] using h.line x.peer⟩
    simp only [Watched.step, System.step_act_line] at hc
    obtain hc | hc := List.mem_append.mp hc
    · exact h.line x c hc
    · exact emits_lineChar hclean.regular c hc
  · refine (Side.forall_iff x).mpr ⟨?_, ?_⟩
    · refine (h.audited x).keep extra ?_ ?_ ?_
      · simpa [Watched.step] using hsent
      · simp only [Watched.step, System.step_act_line, System.step_act_ends, List.filter_append,
          List.append_assoc, hstream]
      · simp [Watched.step]
    · refine (h.audited x.peer).keep [] ?_ ?_ ?_
      · simp [Watched.step]
      · simp [Watched.step]
      · simpa [Watched.step] using act_taken hclean

theorem WatchedInv.noise (h : WatchedInv w) (x : Side) (n : Noise) :
    WatchedInv (w.step (.noise x n)) := by
  have hpeer := rxCharacter_stream (w.sys.ends x.peer) n.heard
  refine ⟨?_, ?_, ?_⟩
  · refine (Side.forall_iff x).mpr ⟨by simpa [Watched.step] using h.clean x, ?_⟩
    rw [Watched.step, System.step_noise_ends_peer]
    exact rxCharacter_clean (h.clean x.peer) Noise.packetChar
  · exact h.line
  · refine (Side.forall_iff x).mpr ⟨?_, ?_⟩
    · obtain ⟨htaken, hlen⟩ | ⟨⟨herr, hn⟩, htaken, hlen⟩ :=
        rxCharacter_taken (w.sys.ends x.peer) n.heard
      · have haudit : (w.step (.noise x n)).audit = w.audit := by
          simp [Watched.step, takes, hlen]
        rw [haudit]
        exact (h.audited x).keep [] (by simp [Watched.step]) (by simp [Watched.step])
          (by simpa [Watched.step] using htaken)
      · have haudit : (w.step (.noise x n)).audit x = (w.audit x).forge n.heard := by
          simp [Watched.step, takes, hlen]
        rw [haudit]
        exact (h.audited x).forge (Noise.packetChar herr hn) (by simp [Watched.step]) rfl
          (by simpa [Watched.step] using htaken)
    · have haudit : (w.step (.noise x n)).audit x.peer = w.audit x.peer := by
        simp only [Watched.step]
        split <;> simp
      rw [haudit]
      refine (h.audited x.peer).keep [] ?_ ?_ ?_
      · simpa [Watched.step] using hpeer.1
      · simp [Watched.step, hpeer.2]
      · simp [Watched.step]

theorem Split.received {gone done : List SpaceWirePacket} {begun collected genuine : List Character}
    (h : Split x s g gone begun done collected genuine) : (s.ends x.peer).received <+: done := by
  have htaken := h.taken
  rw [Traffic.taken, List.append_assoc] at htaken
  exact prefix_of_nchars (fun c hc => (h.collectedChars c hc).2) htaken

/-- The genuine N-Chars among those that have been returned. -/
theorem Split.returned {gone done : List SpaceWirePacket} {begun collected genuine : List Character}
    (h : Split x s g gone begun done collected genuine) :
    ∃ kept : List Character,
      kept.Sublist ((s.ends x.peer).received.flatMap SpaceWirePacket.nchars) ∧
      kept.Sublist ((s.ends x).sent.flatMap SpaceWirePacket.nchars) ∧
      ((s.ends x.peer).received.flatMap SpaceWirePacket.nchars).length ≤
        kept.length + g.forged := by
  have hkept := h.kept
  have hcounted := h.counted
  rw [Traffic.taken, List.append_assoc] at hkept hcounted
  obtain ⟨kept, rest, rfl, hreceived, hrest⟩ := List.sublist_append_iff.mp hkept
  refine ⟨kept, hreceived, ?_, ?_⟩
  · rw [← h.sent, List.append_assoc]
    exact (List.sublist_append_left _ _).trans (h.left.trans (List.sublist_append_left _ _))
  · have hlen := hrest.length_le
    simp only [List.length_append] at hcounted hlen
    omega

end SpaceWire.Resets
