import I486TccLinux.Shutdown.Killall
import I486TccLinux.Text.Fields

set_option relaxedAutoImplicit false
set_option autoImplicit false

/-!
# The words that `killall5` is called with

`local/etc/rc.shutdown` calls `killall5 -o $PID_NBD_CLIENT,$PID_SDHCP -s TERM`, and later the same
with `KILL`. The expansions are not quoted, so a blank in the output of `pidof` ends the word after
`-o`; the rest is a word that is not an option, and the option parsing stops there.

## Main definitions

* `Killall.options`, `Killall.main` — what `killall5` makes of its words.
* `Killall.argv` — the words of the two calls.

## Main results

* `Killall.main_argv` — the omit list and the signal of a call, for any output of `pidof`.
* `Killall.mem_main_argv_iff` — when all process ids found are on the list.
-/

namespace Killall

open Text

/-- The signals by name. -/
def signalOf (v : List Char) : Option Signal :=
  if v = "TERM".toList then some .term
  else if v = "KILL".toList then some .kill
  else if v = "STOP".toList then some .stop
  else if v = "CONT".toList then some .cont
  else none

/-- The options of `main`: `-o` and `-s` take the next word, any other option is an error, and the
first word that is no option ends the options. -/
def options (arg : List Char) (sig : Signal) : List (List Char) → Option (List Char × Signal)
  | ['-', 'o'] :: v :: argv => options v sig argv
  | ['-', 's'] :: v :: argv => (signalOf v).bind fun sig => options arg sig argv
  | ('-' :: _ :: _) :: _ => none
  | _ => some (arg, sig)

/-- What `main` does before it signals anything: the omit list and the signal. -/
def main (argv : List (List Char)) : Option (List Nat × Signal) :=
  (options [] .term argv).bind fun o => ((fields ',' o.1).mapM strtol).map fun pids => (pids, o.2)

/-- The output of `pidof`, on one line. -/
def text (pids : List Nat) : List Char := joined ' ' (pids.map decimal)

/-- `$PID_NBD_CLIENT,$PID_SDHCP` -/
def omitArg (nbdClient sdhcp : List Nat) : List Char := text nbdClient ++ ',' :: text sdhcp

/-- `-o $PID_NBD_CLIENT,$PID_SDHCP -s SIG`, split at blanks -/
def argv (nbdClient sdhcp : List Nat) (sig : String) : List (List Char) :=
  ['-', 'o'] :: fields ' ' (omitArg nbdClient sdhcp) ++ [['-', 's'], sig.toList]

/-! ## The word after `-o` -/

/-- Process ids and the comma between them hold no dash. -/
theorem dash_not_mem_text (pids : List Nat) : '-' ∉ text pids := by
  intro hmem
  obtain heq | ⟨w, hw, hdash⟩ := mem_joined hmem
  · cases heq
  · obtain ⟨n, -, rfl⟩ := List.mem_map.mp hw
    exact not_mem_decimal rfl hdash

/-- The argument of `-o` has no dash in it, and so is never taken for an option. -/
theorem dash_not_mem_omitArg (nbdClient sdhcp : List Nat) : '-' ∉ omitArg nbdClient sdhcp := by
  rw [omitArg, List.mem_append, List.mem_cons]
  rintro (hmem | heq | hmem)
  · exact dash_not_mem_text _ hmem
  · cases heq
  · exact dash_not_mem_text _ hmem

/-- The options end at a word that does not begin with a dash. -/
theorem options_stop (arg : List Char) (sig : Signal) {w : List Char} (hw : '-' ∉ w)
    (argv : List (List Char)) : options arg sig (w :: argv) = some (arg, sig) := by
  unfold options
  split
  · exact absurd (by simp_all) hw
  · exact absurd (by simp_all) hw
  · exact absurd (by simp_all) hw
  · rfl

/-- **A second word in the expansion ends the options**: the signal is not read. -/
theorem options_argv_of_blank {nbdClient sdhcp : List Nat} {xs ys : List Char} (sig : String)
    (hsplit : omitArg nbdClient sdhcp = xs ++ ' ' :: ys) (hxs : xs ≠ []) (hblank : ' ' ∉ xs)
    {c : Char} (hc : c ∈ ys) (hne : c ≠ ' ') :
    options [] .term (argv nbdClient sdhcp sig) = some (xs, .term) := by
  have hfields : fields ' ' (omitArg nbdClient sdhcp) = xs :: fields ' ' ys := by
    rw [hsplit, fields_append_cons, fields_eq_singleton hxs hblank, List.singleton_append]
  obtain ⟨w, ws, hws⟩ := List.exists_cons_of_ne_nil (fields_ne_nil hc hne)
  have hdash : '-' ∉ w := by
    intro hmem
    have hw : w ∈ fields ' ' (omitArg nbdClient sdhcp) := by simp [hfields, hws]
    exact dash_not_mem_omitArg _ _ (mem_of_mem_fields hw hmem)
  rw [argv, hfields, hws]
  exact options_stop xs .term hdash _

/-- With one word in the expansion both options are read. -/
theorem options_argv_of_word {nbdClient sdhcp : List Nat} {sig : String} {s : Signal}
    (hsig : signalOf sig.toList = some s) (hblank : ' ' ∉ omitArg nbdClient sdhcp) :
    options [] .term (argv nbdClient sdhcp sig) = some (omitArg nbdClient sdhcp, s) := by
  have hne : omitArg nbdClient sdhcp ≠ [] := by simp [omitArg]
  rw [argv, fields_eq_singleton hne hblank]
  simp [options, hsig]

/-! ## The omit list -/

/-- No PIDs make an empty text. -/
@[simp] theorem text_nil : text [] = [] := rfl

/-- One PID is its digits. -/
@[simp] theorem text_singleton (a : Nat) : text [a] = decimal a := by
  simp [text]

/-- Two PIDs and more have blanks between them. -/
theorem text_cons_cons (a b : Nat) (pids : List Nat) :
    text (a :: b :: pids) = decimal a ++ ' ' :: text (b :: pids) := by
  simp [text, joined_cons_cons]

/-- A digit of the first process id. -/
theorem exists_mem_text (a : Nat) (pids : List Nat) : ∃ c ∈ text (a :: pids), c ≠ ' ' := by
  obtain ⟨c, hc⟩ := List.exists_mem_of_ne_nil _ (decimal_ne_nil a)
  refine ⟨c, mem_joined_of_mem (List.mem_map_of_mem List.mem_cons_self) hc, fun heq => ?_⟩
  rw [heq] at hc
  exact not_mem_decimal rfl hc

/-- At most one process id is no list with blanks. -/
theorem blank_not_mem_text {pids : List Nat} (hlen : pids.length ≤ 1) : ' ' ∉ text pids := by
  match pids, hlen with
  | [], _ => simp
  | [a], _ =>
    rw [text_singleton]
    exact not_mem_decimal rfl

/-- At most one process id is read back from a text between commas. -/
theorem mapM_fields_text {pids : List Nat} (hlen : pids.length ≤ 1) :
    (fields ',' (text pids)).mapM strtol = some pids := by
  match pids, hlen with
  | [], _ => simp
  | [a], _ =>
    rw [text_singleton, fields_eq_singleton (decimal_ne_nil a) (not_mem_decimal rfl)]
    simp

/-- The items before and after the comma. -/
theorem mapM_fields_append {xs ys : List Nat} (hxs : xs.length ≤ 1) (hys : ys.length ≤ 1) :
    (fields ',' (text xs ++ ',' :: text ys)).mapM strtol = some (xs ++ ys) := by
  rw [fields_append_cons, List.mapM_append, mapM_fields_text hxs, mapM_fields_text hys]
  rfl

/-- Then only the process ids before the blank are on the list. -/
theorem main_argv_of_blank {nbdClient sdhcp pids : List Nat} {xs ys : List Char} (sig : String)
    (hsplit : omitArg nbdClient sdhcp = xs ++ ' ' :: ys) (hxs : xs ≠ []) (hblank : ' ' ∉ xs)
    (hys : ∃ c ∈ ys, c ≠ ' ') (hpids : (fields ',' xs).mapM strtol = some pids) :
    main (argv nbdClient sdhcp sig) = some (pids, .term) := by
  obtain ⟨c, hc, hne⟩ := hys
  rw [main, options_argv_of_blank sig hsplit hxs hblank hc hne, Option.bind_some, hpids]
  rfl

/-- A list with more than one PID starts with two. -/
theorem exists_cons_cons {pids : List Nat} (h : 1 < pids.length) :
    ∃ a b rest, pids = a :: b :: rest := by
  match pids, h with
  | a :: b :: rest, _ => exact ⟨a, b, rest, rfl⟩

/-- **The omit list and the signal of a call**: with several `nbd-client` processes only the first
is on the list, with several `sdhcp` processes only the first of these; in both cases the signal
stays `SIGTERM`.

**Proof sketch.** `pidof` separates PIDs by blanks, at which the shell splits the word. The omit
list is what stands before the first blank, and what stands behind it is no option, so that parsing
ends and the signal is not looked at any more. Without a blank the whole word is the list. -/
theorem main_argv (nbdClient sdhcp : List Nat) {sig : String} {s : Signal}
    (hsig : signalOf sig.toList = some s) :
    main (argv nbdClient sdhcp sig) =
      some (if 1 < nbdClient.length then (nbdClient.take 1, .term)
        else (nbdClient ++ sdhcp.take 1, if 1 < sdhcp.length then .term else s)) := by
  by_cases hnbd : 1 < nbdClient.length
  · -- the blank after the first process id ends the word
    obtain ⟨a, b, rest, rfl⟩ := exists_cons_cons hnbd
    obtain ⟨c, hc, hne⟩ := exists_mem_text b rest
    have hsplit : omitArg (a :: b :: rest) sdhcp =
        decimal a ++ ' ' :: (text (b :: rest) ++ ',' :: text sdhcp) := by
      simp [omitArg, text_cons_cons]
    have hpids := mapM_fields_text (show [a].length ≤ 1 from le_rfl)
    rw [text_singleton] at hpids
    rw [if_pos hnbd]
    exact main_argv_of_blank sig hsplit (decimal_ne_nil a) (not_mem_decimal rfl)
      ⟨c, List.mem_append_left _ hc, hne⟩ hpids
  · have hone : nbdClient.length ≤ 1 := Nat.le_of_not_lt hnbd
    rw [if_neg hnbd]
    by_cases hsd : 1 < sdhcp.length
    · obtain ⟨a, b, rest, rfl⟩ := exists_cons_cons hsd
      have hsplit : omitArg nbdClient (a :: b :: rest) =
          (text nbdClient ++ ',' :: decimal a) ++ ' ' :: text (b :: rest) := by
        simp [omitArg, text_cons_cons]
      have hblank : ' ' ∉ text nbdClient ++ ',' :: decimal a := by
        simp [blank_not_mem_text hone, not_mem_decimal]
      have hpids := mapM_fields_append hone (show [a].length ≤ 1 from le_rfl)
      rw [text_singleton] at hpids
      rw [if_pos hsd]
      exact main_argv_of_blank sig hsplit (by simp) hblank (exists_mem_text b rest) hpids
    · have htwo : sdhcp.length ≤ 1 := Nat.le_of_not_lt hsd
      have hblank : ' ' ∉ omitArg nbdClient sdhcp := by
        simp [omitArg, blank_not_mem_text hone, blank_not_mem_text htwo]
      rw [main, options_argv_of_word hsig hblank, if_neg hsd, Option.bind_some, omitArg,
        mapM_fields_append hone htwo, List.take_of_length_le htwo]
      rfl

/-- **All process ids found are on the list** exactly when there is at most one `nbd-client`, and
one `sdhcp` at most that is not found as an `nbd-client` too.

**Proof sketch.** The list is read off `main_argv`. With several `nbd-client` processes the second
one is missing, and with several `sdhcp` processes all but the first are, unless they were found as
`nbd-client` too. -/
theorem mem_main_argv_iff {nbdClient sdhcp : List Nat} (hnbd : nbdClient.Nodup)
    (hsdhcp : sdhcp.Nodup) {sig : String} {s : Signal} (hsig : signalOf sig.toList = some s) :
    (∃ o, main (argv nbdClient sdhcp sig) = some o ∧ ∀ pid ∈ nbdClient ++ sdhcp, pid ∈ o.1) ↔
      nbdClient.length ≤ 1 ∧ ∀ pid ∈ sdhcp.tail, pid ∈ nbdClient := by
  simp only [main_argv nbdClient sdhcp hsig, Option.some_inj, exists_eq_left']
  by_cases hlen : 1 < nbdClient.length
  · obtain ⟨a, b, rest, rfl⟩ := exists_cons_cons hlen
    have hab : b ≠ a := by
      rintro rfl
      simp at hnbd
    rw [if_pos hlen]
    constructor
    · intro hall
      exact absurd (List.mem_singleton.mp (hall b (by simp))) hab
    · rintro ⟨hle, -⟩
      omega
  · rw [if_neg hlen]
    cases sdhcp with
    | nil =>
      constructor
      · exact fun _ => ⟨Nat.le_of_not_lt hlen, by simp⟩
      · exact fun _ pid hpid => by simpa using hpid
    | cons a rest =>
      have hnotin : ∀ pid ∈ rest, pid ≠ a := by
        rintro pid hpid rfl
        exact (List.nodup_cons.mp hsdhcp).1 hpid
      constructor
      · intro hall
        refine ⟨Nat.le_of_not_lt hlen, fun pid hpid => ?_⟩
        have hmem : pid ∈ nbdClient ++ [a] := hall pid (by simp [show pid ∈ rest from hpid])
        exact (List.mem_append.mp hmem).resolve_right fun h => hnotin pid hpid (by simpa using h)
      · rintro ⟨-, htail⟩ pid hpid
        simp only [List.mem_append, List.mem_cons] at hpid
        rcases hpid with hpid | rfl | hpid
        · exact List.mem_append_left _ hpid
        · simp
        · exact List.mem_append_left _ (htail pid hpid)

end Killall
