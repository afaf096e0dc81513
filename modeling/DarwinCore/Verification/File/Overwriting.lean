import DarwinCore.Model.File.SecureDelete

/-! # The passes over a file

A pass that succeeds writes from the first byte to the last one, in pieces as long as the buffer;
no pass makes a file longer or shorter. -/

namespace DarwinCore.File

/-- The pieces lie one after the other from `k` to `n`. -/
inductive Covers : ℕ → ℕ → List (ℕ × List UInt8) → Prop where
  | done (n : ℕ) : Covers n n []
  | piece {k n : ℕ} {data : List UInt8} {pieces : List (ℕ × List UInt8)}
      (h : Covers (k + data.length) n pieces) : Covers k n ((k, data) :: pieces)

variable {device : Device} {fd fd' : Descriptor} {size : ℕ} {success : Bool} {P : UInt8 → Prop}
  {data : List UInt8}

/-! ## Writing a piece -/

def Bytes (P : UInt8 → Prop) (content : List UInt8) : Prop :=
  ∀ x ∈ content, P x

theorem Bytes.take {content : List UInt8} (h : Bytes P content) (n : ℕ) :
    Bytes P (content.take n) :=
  fun x hx => h x (List.mem_of_mem_take hx)

theorem Bytes.append {first second : List UInt8} (h : Bytes P first) (h' : Bytes P second) :
    Bytes P (first ++ second) :=
  List.forall_mem_append.mpr ⟨h, h'⟩

structure Wrote (device : Device) (data : List UInt8) (fd fd' : Descriptor) (written : Option ℕ) :
    Prop where
  length : fd'.content.length = fd.content.length
  writes : ∃ more, fd'.writes = fd.writes ++ more ∧
    (written = some data.length → more = [(fd.offset, data)])
  offset : written = some data.length → fd'.offset = fd.offset + data.length
  taken : written = some data.length → fd'.content.take fd'.offset =
    fd.content.take fd.offset ++ data
  bytes : ∀ P, Bytes P data → Bytes P fd.content → Bytes P fd'.content

private theorem write_spec (hroom : fd.offset + data.length ≤ fd.content.length) :
    Wrote device data fd (fd.write device data).1 (fd.write device data).2 := by
  unfold Descriptor.write
  cases device.taken fd.writes.length with
  | none => exact ⟨rfl, ⟨[], by simp⟩, by simp, by simp, fun _ _ h => h⟩
  | some n =>
    have hle : (data.take n).length ≤ data.length := List.length_take_le' n data
    have hall : some (data.take n).length = some data.length → data.take n = data := by
      intro hlength
      refine List.take_of_length_le ?_
      simp only [List.length_take, Option.some.injEq] at hlength
      omega
    have hfirst : (fd.content.take fd.offset).length = fd.offset :=
      List.length_take_of_le (by omega)
    refine ⟨?_, ⟨_, rfl, fun hlength => by rw [hall hlength]⟩,
      fun hlength => by simp only [hall hlength], fun hlength => ?_, fun P hdata hcontent => ?_⟩
    · simp only [List.length_append, hfirst, List.length_drop]
      omega
    · simp only [hall hlength]
      rw [List.take_append_of_le_length (by simp [hfirst]), List.take_of_length_le]
      simp [hfirst]
    · refine ((hcontent.take _).append (hdata.take n)).append fun x hx => ?_
      exact hcontent x (List.mem_of_mem_drop hx)

/-- A `write` that can take all bytes does. -/
theorem write_complete {n : ℕ} (htaken : device.taken fd.writes.length = some n)
    (hn : data.length ≤ n) : (fd.write device data).2 = some data.length := by
  simp only [Descriptor.write, htaken]
  rw [List.take_of_length_le hn]

/-! ## A pass -/

structure Fills (size : ℕ) (P : UInt8 → Prop) (fill : Descriptor → List UInt8 × Descriptor) :
    Prop where
  length : ∀ fd, (fill fd).1.length = bufferSize size
  bytes : ∀ fd, Bytes P (fill fd).1
  content : ∀ fd, (fill fd).2.content = fd.content
  offset : ∀ fd, (fill fd).2.offset = fd.offset
  writes : ∀ fd, (fill fd).2.writes = fd.writes

private theorem fills_pattern {buffer : List UInt8} (hlength : buffer.length = bufferSize size)
    (hbytes : Bytes P buffer) : Fills size P fun fd => (buffer, fd) :=
  ⟨fun _ => hlength, fun _ => hbytes, fun _ => rfl, fun _ => rfl, fun _ => rfl⟩

private theorem fills_random : Fills size (fun x => ∃ n, device.noise n = x)
    (Descriptor.draw device (bufferSize size)) := by
  refine ⟨fun fd => List.length_ofFn, fun fd x hx => ?_, fun _ => rfl, fun _ => rfl, fun _ => rfl⟩
  obtain ⟨i, rfl⟩ := List.mem_ofFn.mp hx
  exact ⟨_, rfl⟩

/-- Every `write` takes all bytes. -/
def Complete (device : Device) : Prop :=
  ∀ n, device.taken n = some (64 * 1024)

/-- What the passes do, where `P` is what is known of the bytes that the last one writes. -/
structure Overwrote (device : Device) (P : UInt8 → Prop) (fd fd' : Descriptor) (success : Bool)
    (passes : ℕ) : Prop where
  length : fd'.content.length = fd.content.length
  writes : ∃ more, fd'.writes = fd.writes ++ more
  passes : success = true → ∃ sweeps : List (List (ℕ × List UInt8)),
    fd'.writes = fd.writes ++ sweeps.flatten ∧ sweeps.length = passes ∧
      ∀ sweep ∈ sweeps, Covers 0 fd.content.length sweep
  bytes : success = true → Bytes P fd'.content
  complete : Complete device → success = true

/-- The same of the loop of a pass from the offset on. -/
structure Swept (device : Device) (P : UInt8 → Prop) (fd fd' : Descriptor) (success : Bool) :
    Prop where
  length : fd'.content.length = fd.content.length
  writes : ∃ more, fd'.writes = fd.writes ++ more ∧
    (success = true → Covers fd.offset fd.content.length more)
  bytes : success = true → Bytes P (fd.content.take fd.offset) → Bytes P fd'.content
  kept : Bytes P fd.content → Bytes P fd'.content
  complete : Complete device → success = true

private theorem overwriteLoop_spec {fill : Descriptor → List UInt8 × Descriptor}
    (hfill : Fills size P fill)
    {fuel remaining : ℕ} (hfuel : remaining ≤ fuel) (hsize : fd.content.length = size)
    (hoffset : fd.offset + remaining = size) :
    Swept device P fd (overwriteLoop device fill fuel remaining fd).1
      (overwriteLoop device fill fuel remaining fd).2 := by
  induction fuel generalizing remaining fd with
  | zero =>
    obtain rfl : remaining = 0 := Nat.le_zero.mp hfuel
    rw [overwriteLoop]
    refine ⟨rfl, ⟨[], by simp, fun _ => ?_⟩, fun _ hbytes => ?_, fun h => h, fun _ => rfl⟩
    · rw [hsize, ← hoffset]
      exact .done _
    · rwa [List.take_of_length_le (by omega)] at hbytes
  | succ fuel ih =>
    rw [overwriteLoop]
    split_ifs with hdone
    · subst hdone
      refine ⟨rfl, ⟨[], by simp, fun _ => ?_⟩, fun _ hbytes => ?_, fun h => h, fun _ => rfl⟩
      · rw [hsize, ← hoffset]
        exact .done _
      · rwa [List.take_of_length_le (by omega)] at hbytes
    · have hbuffer : 0 < bufferSize size := by
        unfold bufferSize
        omega
      obtain ⟨buffer, fd₁, hfd₁⟩ : ∃ buffer fd₁, fill fd = (buffer, fd₁) := ⟨_, _, rfl⟩
      have hlength : buffer.length = bufferSize size := by simpa [hfd₁] using hfill.length fd
      have hbytes : Bytes P buffer := by simpa [hfd₁] using hfill.bytes fd
      have hcontent₁ : fd₁.content = fd.content := by simpa [hfd₁] using hfill.content fd
      have hoffset₁ : fd₁.offset = fd.offset := by simpa [hfd₁] using hfill.offset fd
      have hwrites₁ : fd₁.writes = fd.writes := by simpa [hfd₁] using hfill.writes fd
      have hpiece : (buffer.take (min remaining buffer.length)).length =
          min remaining buffer.length := List.length_take_of_le (Nat.min_le_right _ _)
      obtain ⟨fd₂, written, hwrite⟩ : ∃ fd₂ written,
          fd₁.write device (buffer.take (min remaining buffer.length)) = (fd₂, written) :=
        ⟨_, _, rfl⟩
      have hspec : Wrote device (buffer.take (min remaining buffer.length)) fd₁ fd₂ written := by
        have hroom : fd₁.offset + (buffer.take (min remaining buffer.length)).length ≤
            fd₁.content.length := by
          rw [hpiece, hoffset₁, hcontent₁]
          omega
        have hwrote : Wrote device _ fd₁ _ _ := write_spec hroom
        rwa [hwrite] at hwrote
      simp only [hfd₁, hwrite]
      obtain ⟨more, hmore, hpieces⟩ := hspec.writes
      have hkept : Bytes P fd.content → Bytes P fd₂.content := fun h =>
        hspec.bytes P (hbytes.take _) (by rwa [hcontent₁])
      split_ifs with hwritten
      · refine ⟨by rw [hspec.length, hcontent₁], ⟨more, by rw [hmore, hwrites₁], by simp⟩,
          by simp, hkept, fun hcomplete => absurd ?_ hwritten⟩
        have hroom : (buffer.take (min remaining buffer.length)).length ≤ 64 * 1024 := by
          rw [hpiece, hlength, bufferSize]
          omega
        have hfull := write_complete (hcomplete fd₁.writes.length) hroom
        rw [hwrite] at hfull
        rw [← hpiece]
        exact hfull
      · rw [not_not] at hwritten
        rw [← hpiece] at hwritten
        have hoffset₂ := hspec.offset hwritten
        have hsize₂ : fd₂.content.length = size := by rw [hspec.length, hcontent₁, hsize]
        have hleft : fd₂.offset + (remaining - min remaining buffer.length) = size := by
          rw [hoffset₂, hpiece, hoffset₁]
          omega
        have hrest := ih (by omega) hsize₂ hleft
        obtain ⟨later, hlater, hcovers⟩ := hrest.writes
        refine ⟨by rw [hrest.length, hspec.length, hcontent₁],
          ⟨more ++ later, by rw [hlater, hmore, hwrites₁, List.append_assoc], fun hsuccess => ?_⟩,
          fun hsuccess hfirst => hrest.bytes hsuccess ?_, fun h => hrest.kept (hkept h),
          hrest.complete⟩
        · rw [hpieces hwritten, hoffset₁]
          refine .piece ?_
          have hcovers := hcovers hsuccess
          rwa [hoffset₂, hoffset₁, hspec.length, hcontent₁] at hcovers
        · rw [hspec.taken hwritten, hoffset₁, hcontent₁]
          exact hfirst.append (hbytes.take _)

structure IsPass (device : Device) (size : ℕ) (P : UInt8 → Prop) (pass : Overwrite) : Prop where
  swept : ∀ fd, fd.content.length = size →
    Swept device P fd.rewind (pass fd).1 (pass fd).2

theorem isPass_loop {fill : Descriptor → List UInt8 × Descriptor} (hfill : Fills size P fill) :
    IsPass device size P fun fd => overwriteLoop device fill size size fd.rewind :=
  ⟨fun _ hsize => overwriteLoop_spec hfill le_rfl hsize (Nat.zero_add size)⟩

theorem isPass_pattern {buffer : List UInt8} (hlength : buffer.length = bufferSize size)
    (hbytes : Bytes P buffer) : IsPass device size P (overwritePattern device size buffer) :=
  isPass_loop (fills_pattern hlength hbytes)

private theorem isPass_random :
    IsPass device size (fun x => ∃ n, device.noise n = x) (overwriteRandom device size) :=
  isPass_loop fills_random

/-! ## All passes -/

theorem Swept.overwrote (h : Swept device P fd.rewind fd' success) :
    Overwrote device P fd fd' success 1 := by
  obtain ⟨more, hmore, hcovers⟩ := h.writes
  refine ⟨h.length, ⟨more, hmore⟩, fun hsuccess => ⟨[more], ?_, rfl, ?_⟩, fun hsuccess => ?_,
    h.complete⟩
  · rw [hmore, List.flatten_singleton]
    rfl
  · exact List.forall_mem_singleton.mpr (hcovers hsuccess)
  · exact h.bytes hsuccess (by simp [Descriptor.rewind, Bytes])

private theorem overwriteAll_spec {passes : List Overwrite} (hpasses : passes ≠ [])
    (hall : ∀ pass ∈ passes, ∃ P, IsPass device size P pass)
    (hlast : ∀ pass ∈ passes.getLast?, IsPass device size P pass)
    (hsize : fd.content.length = size) :
    Overwrote device P fd (overwriteAll passes fd).1 (overwriteAll passes fd).2 passes.length := by
  induction passes generalizing fd with
  | nil => exact absurd rfl hpasses
  | cons pass passes ih =>
    rw [overwriteAll]
    obtain ⟨fd₁, success, hpass⟩ : ∃ fd₁ success, pass fd = (fd₁, success) := ⟨_, _, rfl⟩
    obtain ⟨⟨Q, hfirst⟩, hothers⟩ := List.forall_mem_cons.mp hall
    have hswept : Swept device Q fd.rewind fd₁ success := by
      simpa [hpass] using hfirst.swept fd hsize
    obtain ⟨more, hmore, hcovers⟩ := hswept.writes
    have hlength : fd₁.content.length = fd.content.length := hswept.length
    cases success with
    | false =>
      simp only [hpass]
      exact ⟨hlength, ⟨more, hmore⟩, by simp, by simp,
        fun hcomplete => absurd (hswept.complete hcomplete) (by simp)⟩
    | true =>
      simp only [hpass, not_true_eq_false, if_false]
      have hcovers : Covers 0 fd.content.length more := hcovers rfl
      by_cases hnil : passes = []
      · subst hnil
        have hswept : Swept device P fd.rewind fd₁ true := by
          simpa [hpass] using (hlast pass rfl).swept fd hsize
        exact hswept.overwrote
      · have hrest := ih hnil hothers
          (by simpa [List.getLast?_cons_of_ne_nil hnil] using hlast) (hlength.trans hsize)
        obtain ⟨later, hlater⟩ := hrest.writes
        refine ⟨hrest.length.trans hlength, ⟨more ++ later, ?_⟩, fun hdone => ?_, hrest.bytes,
          hrest.complete⟩
        · rw [hlater, hmore, List.append_assoc]
          rfl
        · obtain ⟨sweeps, hsweeps, hcount, heach⟩ := hrest.passes hdone
          refine ⟨more :: sweeps, ?_, by simp [hcount],
            List.forall_mem_cons.mpr ⟨hcovers, ?_⟩⟩
          · rw [hsweeps, hmore, List.flatten_cons, List.append_assoc]
            rfl
          · simpa [hlength] using heach

def passCount (mode : SecureDeleteMode) : ℕ :=
  match mode with
  | .simple => 1
  | .doD => 3
  | .gutmann => 4 + gutmannPatterns.length + 4

def LastPass (device : Device) (mode : SecureDeleteMode) (x : UInt8) : Prop :=
  match mode with
  | .simple => x = 0
  | _ => ∃ n, device.noise n = x

private theorem isPass_zeros :
    IsPass device size (· = 0)
      (overwritePattern device size (List.replicate (bufferSize size) 0x00)) :=
  isPass_pattern List.length_replicate fun _ hx => List.eq_of_mem_replicate hx

private theorem isPass_any {buffer : List UInt8} (hlength : buffer.length = bufferSize size) :
    ∃ P, IsPass device size P (overwritePattern device size buffer) :=
  ⟨fun _ => True, isPass_pattern hlength fun _ _ => trivial⟩

theorem overwrite_spec (mode : SecureDeleteMode) (hsize : fd.content.length = size) :
    Overwrote device (LastPass device mode) fd (overwrite device size mode fd).1
      (overwrite device size mode fd).2 (passCount mode) := by
  cases mode with
  | simple =>
    exact (isPass_zeros.swept fd hsize).overwrote
  | doD =>
    have hpasses : dodPasses device size ≠ [] := by simp [dodPasses]
    refine overwriteAll_spec hpasses ?_ ?_ hsize
    · simp only [dodPasses, List.forall_mem_cons]
      exact ⟨isPass_any List.length_replicate, isPass_any List.length_replicate,
        ⟨_, isPass_random⟩, by simp⟩
    · intro pass hpass
      obtain rfl : overwriteRandom device size = pass := by simpa [dodPasses] using hpass
      exact isPass_random
  | gutmann =>
    have hlength : (gutmannPasses device size).length = passCount .gutmann := by
      rw [gutmannPasses, List.length_append, List.length_append, List.length_replicate,
        List.length_map]
      rfl
    rw [← hlength]
    refine overwriteAll_spec (by simp [gutmannPasses]) ?_ ?_ hsize
    · intro pass hpass
      simp only [gutmannPasses, List.mem_append, List.mem_replicate, List.mem_map] at hpass
      obtain (⟨-, rfl⟩ | ⟨pattern, -, rfl⟩) | ⟨-, rfl⟩ := hpass
      · exact ⟨_, isPass_random⟩
      · exact isPass_any List.length_ofFn
      · exact ⟨_, isPass_random⟩
    · intro pass hpass
      rw [gutmannPasses, List.getLast?_append_of_ne_nil _ (by simp)] at hpass
      obtain rfl : overwriteRandom device size = pass := by simpa using hpass
      exact isPass_random

end DarwinCore.File
