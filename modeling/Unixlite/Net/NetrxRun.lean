import Unixlite.Net.NetrxMoves

/-!
# Every packet has an owner

A packet that meets the condition is put into one place, one that does not into none or two
(`netrx_kept`, `netrx_lost`).  So the condition is exact for runs (`run_owned_iff`).
-/

namespace Unixlite.Net.Netrx

open Unixlite.Verified Unixlite.Verified.Run Unixlite.Verified.Ledger List

namespace Netstate

variable {w w' : Netstate} {l : List Nat} {env : Answers} {f : Frame}

/-! ## One packet -/

/-- A packet that is not delivered is deleted or sent on. -/
theorem ipinput_elsewhere (w : Netstate) (env : Answers) (h : w.delivers f.ih = false) :
    Moves w (w.ipinput env f) [f.id] := by
  unfold ipinput
  by_cases hver : f.ih.ver = 4
  · by_cases hlen : f.ih.headlen = IPHLEN
    · by_cases hsum : f.ih.ipchksum = 0
      · have hhost : w.tothishost f.ih.daddr = false := by
          simpa [delivers, hver, hlen, hsum] using h
        rw [if_neg (by simp [hver]), if_neg (by simp [hlen]), if_neg (by simp [hsum]),
          if_pos (by simp [hhost])]
        exact ipforward_moves w env f
      · rw [if_neg (by simp [hver]), if_neg (by simp [hlen]), if_pos hsum]
        exact delpkt_moves w f.id
    · rw [if_neg (by simp [hver]), if_pos hlen]
      exact delpkt_moves w f.id
  · rw [if_pos hver]
    exact delpkt_moves w f.id

theorem ipinput_delivers (w : Netstate) (env : Answers) (h : w.delivers f.ih = true) :
    w.ipinput env f =
      if f.ih.proto = IPPROTOTCP then w.tcpinput env f
      else if f.ih.proto = IPPROTOUDP then w.udpinput f
      else if icmptakes f.ih then w.delpkt f.id
      else w.toraw env f := by
  have hall : ((f.ih.ver = 4 ∧ f.ih.headlen = IPHLEN) ∧ f.ih.ipchksum = 0) ∧
      w.tothishost f.ih.daddr = true := by
    simpa [delivers] using h
  obtain ⟨⟨⟨hver, hlen⟩, hsum⟩, hhost⟩ := hall
  unfold ipinput icmpinput icmptakes
  rw [if_neg (by simp [hver]), if_neg (by simp [hlen]), if_neg (by simp [hsum]),
    if_neg (by simp [hhost])]
  by_cases hicmp : f.ih.proto = IPPROTOICMP
  · by_cases hbad : f.ih.icmpchksum = 0
    · by_cases hecho : f.ih.type = ICTECHOREQUEST
      · simp [hicmp, hbad, hecho]
      · simp [hicmp, hbad, hecho]
    · have hbad' : ¬ f.ih.icmpchksum = 0#16 := hbad
      simp [hicmp, hbad']
  · simp [hicmp]

theorem ipinput_kept (w : Netstate) (env : Answers)
    (h : w.delivers f.ih = true → w.IpFits env f.ih) : Moves w (w.ipinput env f) [f.id] := by
  cases hdel : w.delivers f.ih with
  | false => exact ipinput_elsewhere w env hdel
  | true =>
      have hfits := h hdel
      unfold IpFits at hfits
      rw [ipinput_delivers w env hdel]
      by_cases htcp : f.ih.proto = IPPROTOTCP
      · rw [if_pos htcp] at hfits ⊢
        exact tcpinput_kept w env hfits
      · rw [if_neg htcp] at hfits ⊢
        by_cases hudp : f.ih.proto = IPPROTOUDP
        · rw [if_pos hudp]
          exact udpinput_moves w f
        · rw [if_neg hudp]
          by_cases hicmp : icmptakes f.ih = true
          · rw [if_pos hicmp]
            exact delpkt_moves w f.id
          · rw [if_neg hicmp]
            exact toraw_kept w ((hfits.resolve_left hudp).resolve_left hicmp)

/-- A packet that does not meet the condition has no place, or two. -/
theorem ipinput_lost (w : Netstate) (env : Answers) (hdel : w.delivers f.ih = true)
    (h : ¬ w.IpFits env f.ih) : ∃ l, l.count f.id ≠ 1 ∧ Moves w (w.ipinput env f) l := by
  unfold IpFits at h
  rw [ipinput_delivers w env hdel]
  by_cases htcp : f.ih.proto = IPPROTOTCP
  · rw [if_pos htcp] at h ⊢
    push Not at h
    exact ⟨[], by simp, tcpinput_lost w env h.1 h.2⟩
  · rw [if_neg htcp] at h ⊢
    push Not at h
    obtain ⟨hudp, hicmp, hraw⟩ := h
    rw [if_neg hudp, if_neg (by simpa using hicmp)]
    exact ⟨[f.id, f.id], by simp, toraw_lost w hraw⟩

/-- **What `netrx` does with a packet** that meets the condition. -/
theorem netrx_kept (w : Netstate) (env : Answers)
    (hloop : f.inputdev.loop = true → f.proto = ETHPIP) (h : w.FrameFits env f) :
    Moves w (w.netrx env f) [f.id] := by
  unfold netrx
  by_cases hip : f.proto = ETHPIP
  · have hnot : ¬ f.proto = ETHPARP := by
      rw [hip]
      decide
    rw [if_pos hip]
    exact ipinput_kept w env (h.resolve_left hnot).2
  · rw [if_neg hip, if_pos (h.resolve_right fun hboth => hip hboth.1)]
    exact arpinput_moves w env (by simpa using fun hdev => hip (hloop hdev))

theorem netrx_lost (w : Netstate) (env : Answers) (h : ¬ w.FrameFits env f) :
    ∃ l, l.count f.id ≠ 1 ∧ Moves w (w.netrx env f) l := by
  unfold FrameFits at h
  push Not at h
  obtain ⟨harp, hip⟩ := h
  unfold netrx
  by_cases hproto : f.proto = ETHPIP
  · rw [if_pos hproto]
    obtain ⟨hdel, hlost⟩ := hip hproto
    exact ipinput_lost w env hdel hlost
  · rw [if_neg hproto, if_neg harp]
    exact ⟨[], by simp, .of_same rfl rfl rfl rfl rfl⟩

/-! ## Runs -/

theorem Inv.owned (h : Inv w) : w.Owned := by
  intro x hx
  have hone := h.exact x
  rw [if_pos (show x < w.book.issued from mem_range.mp hx)] at hone
  rw [← count_append]
  exact hone

theorem Inv.of_moves (h : Inv w) (hmoves : Moves w w' []) : Inv w' := by
  refine ⟨h.exact.of_puts hmoves.puts, fun f hf hdev => ?_⟩
  rcases hmoves.backlog f hf with hold | hip
  · exact h.loop f hold hdev
  · exact hip

/-- A packet from an Ethernet device. -/
theorem Inv.receive (h : Inv w) (hdev : f.inputdev.loop = false) :
    Inv ({ w with issued := w.issued + 1 }.input f.inputdev { f with id := w.issued }) := by
  refine ⟨h.exact.of_puts (.issue rfl ?_), fun g hg hloop => ?_⟩
  · simp only [book, held, input, map_append, map_cons, map_nil]
    rw [perm_iff_count]
    intro x
    simp only [count_append]
    omega
  · rcases mem_append.mp hg with hold | hnew
    · exact h.loop g hold hloop
    · rw [mem_singleton.mp hnew] at hloop
      exact absurd hloop (by simp [hdev])

/-- A packet that the host sends is new, too. -/
theorem Inv.ipoutput (h : Inv w) (env : Answers) (f : Frame) :
    Inv ({ w with issued := w.issued + 1 }.ipforward env { f with id := w.issued }) := by
  have hmoves := ipforward_moves { w with issued := w.issued + 1 } env { f with id := w.issued }
  exact h.of_moves ⟨.of_next hmoves.puts, hmoves.backlog⟩

section

variable {rest : List Frame} (h : Inv w) (hback : w.backlog = f :: rest)

include h hback

/-- The head of `backlog` is taken from it. -/
theorem Inv.taken : Puts { w with backlog := rest }.book w.book [f.id] ∧
    ∀ g ∈ rest, g.inputdev.loop = true → g.proto = ETHPIP := by
  refine ⟨.of_perm rfl ?_, fun g hg => h.loop g (hback ▸ mem_cons_of_mem f hg)⟩
  simp only [book, held, hback, map_cons]
  rw [perm_iff_count]
  intro x
  simp only [count_append, count_cons, cons_append]
  simp only [count_nil]
  omega

theorem Inv.netsoftisr (hfits : w.FrameFits env f) :
    Inv ({ w with backlog := rest }.netrx env f) := by
  obtain ⟨htaken, hrest⟩ := h.taken hback
  have hloop : f.inputdev.loop = true → f.proto = ETHPIP :=
    h.loop f (hback ▸ mem_cons_self)
  have hmoves := netrx_kept { w with backlog := rest } env hloop hfits
  refine ⟨h.exact.put_back htaken rfl hmoves.puts, fun g hg hdev => ?_⟩
  rcases hmoves.backlog g hg with hold | hip
  · exact hrest g hold hdev
  · exact hip

theorem Inv.netsoftisr_lost (hfits : ¬ w.FrameFits env f) :
    ¬ ({ w with backlog := rest }.netrx env f).Owned := by
  obtain ⟨htaken, -⟩ := h.taken hback
  obtain ⟨l, hcount, hmoves⟩ := netrx_lost { w with backlog := rest } env hfits
  obtain ⟨hone, hlt⟩ := h.exact.not_put_back htaken rfl hmoves.puts hcount
  intro howned
  refine hone ?_
  have hplaced := howned f.id (mem_range.mpr hlt)
  rw [← count_append] at hplaced
  exact hplaced

end

end Netstate

/-! ## A host with two raw sockets -/

/-- 192.168.0.1 on an Ethernet device, and two raw sockets for ICMP. -/
def pinghost : Netstate where
  netdevq := [⟨⟨0x0100007f, 1500⟩, 0, true⟩, ⟨⟨0x0100a8c0, 1500⟩, 1, false⟩]
  route daddr := some (⟨⟨0x0100a8c0, 1500⟩, 1, false⟩, daddr)
  arptab _ := ⟨.inval, ETHPIP, 4, 0, 6⟩
  hashq := List.finRange 32
  lruq := ⟨List.finRange 32, by decide⟩
  raws := [⟨0, IPPROTOICMP, 0, 0⟩, ⟨1, IPPROTOICMP, 0, 0⟩]
  udps := []
  fhash := []
  listenhash := []
  backlog := []
  linked := []
  freed := []
  issued := 0

/-- An echo reply from 192.168.0.2, in a frame of the Ethernet protocol `proto`. -/
def echoreply (proto : BitVec 16) : Frame where
  id := 0
  inputdev := ⟨⟨0x0100a8c0, 1500⟩, 1, false⟩
  proto := proto
  ih := ⟨4, 20, 0, 0x0200a8c0, 0x0100a8c0, IPPROTOICMP, 0, 0, 0, 0, 0, 0,
    ⟨28, ⟨0, 0, 0, 0, 0, 0, 0, []⟩, [], 60⟩, 0⟩
  ah := ⟨0, 0, 0, 0, 0⟩

namespace Netstate

theorem pinghost_inv : Inv pinghost :=
  ⟨fun x => by simp [book, held, pinghost], fun f hf => by cases hf⟩

/-- Without it the first one has a packet that has been deleted. -/
example : (exec step pinghost
    [.receive (echoreply ETHPIP), .netsoftisr ⟨fun _ => false, fun _ => false, 0⟩]).map
      (fun w => (w.linked, w.freed)) = some ([(.raw 0, 0)], [0]) := rfl

end Netstate

end Unixlite.Net.Netrx
