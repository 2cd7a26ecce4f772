import WorkloadKit.Pulse.State

namespace WorkloadKit.Pulse

open CString

variable {online : ℤ} {cpuset : Pincpu} {input after after₁ after₂ : List Char}

theorem delimiters_terminated : delimiters ('\x00' :: after) = [','] := by
  simp [delimiters]

-- If a zero happens to come after `sep`, then the input is only split at commas.
theorem pincpuParseFrom_terminated :
    pincpuParseFrom ('\x00' :: after) online cpuset input = pincpuParse online cpuset input := by
  rw [pincpuParseFrom, delimiters_terminated, ←strtok_eq_strtokAny, pincpuParse]

-- The result is the same if the same characters of the input are delimiters.
theorem pincpuParseFrom_congr (h : ∀ c ∈ input, c ∈ delimiters after₁ ↔ c ∈ delimiters after₂) :
    pincpuParseFrom after₁ online cpuset input = pincpuParseFrom after₂ online cpuset input := by
  rw [pincpuParseFrom, strtokAny_congr h, pincpuParseFrom]

theorem pincpuParseFrom_nrcpus : (pincpuParseFrom after online cpuset input).snd.nrcpus =
    cpuset.nrcpus + (strtokAny (delimiters after) input).length :=
  rfl

-- The memory may well contain all characters of the input.
theorem strtokAny_delimiters_self (hz : '\x00' ∉ input) : strtokAny (delimiters input) input = [] := by
  have ht : input.takeWhile (· ≠ '\x00') = input := by
    refine List.takeWhile_eq_self_iff.mpr fun c hc => decide_eq_true ?_
    rintro rfl
    exact hz hc
  rw [strtokAny_eq_nil_iff, delimiters, ht]
  exact fun _ => List.mem_cons_of_mem _

-- The memory after `sep` makes no difference if and only if the input contains nothing but commas.
theorem pincpuParseFrom_irrelevant_iff (hz : '\x00' ∉ input) :
    (∀ after₁ after₂, pincpuParseFrom after₁ online cpuset input = pincpuParseFrom after₂ online cpuset input) ↔
      ∀ c ∈ input, c = ',' := by
  constructor
  case mp =>
    intro h
    have hn := congrArg (·.snd.nrcpus) <| h ['\x00'] input
    simp only [pincpuParseFrom_nrcpus, delimiters_terminated, strtokAny_delimiters_self hz, List.length_nil,
      Nat.add_left_cancel_iff, List.length_eq_zero_iff, strtokAny_eq_nil_iff, List.mem_singleton] at hn
    exact hn
  case mpr =>
    intro h after₁ after₂
    refine pincpuParseFrom_congr fun c hc => ?_
    obtain rfl := h c hc
    exact iff_of_true List.mem_cons_self List.mem_cons_self

theorem pincpuParseFrom_irrelevant_comma :
    pincpuParseFrom ['x', '\x00'] 4 ⟨[], 0⟩ [',', ','] = pincpuParseFrom ['\x00'] 4 ⟨[], 0⟩ [',', ','] :=
  (pincpuParseFrom_irrelevant_iff <| by decide).mpr (by simp) ['x', '\x00'] ['\x00']

-- With an `x` after `sep`, there are two numbers. Without it, there is a token which is not a number.
theorem not_pincpuParseFrom_irrelevant :
    ¬∀ online cpuset input after₁ after₂, '\x00' ∉ input →
      pincpuParseFrom after₁ online cpuset input = pincpuParseFrom after₂ online cpuset input := by
  intro h
  have hr := congrArg Prod.fst <| h 4 ⟨[], 0⟩ ['1', 'x', '2'] ['x', '\x00'] ['\x00'] (by decide)
  exact absurd hr (by decide)

end WorkloadKit.Pulse
