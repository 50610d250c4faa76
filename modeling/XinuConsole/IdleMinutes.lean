import XinuConsole.Reservation

/-!
The minutes a session has been idle, from the daemon's clock to the client's
test. `Status` prints the seconds as hours, minutes and seconds, and
`getMinutes` reads the first two back.
-/

namespace XinuConsole.IdleMinutes

open Lib ConnectUtils Consoled MakeConnection Reservation

theorem getMinutes_renderTime_natCast {e : ℕ} (he : e < 2 ^ 31) :
    getMinutes (renderTime e) = some ((e / 60 : ℕ) : ℤ) := by
  have hint : IsInt (e : ℤ) := by
    unfold IsInt
    omega
  rw [getMinutes_renderTime hint, Option.some.injEq]
  have hhours : (e : ℤ).tdiv 3600 = ((e / 3600 : ℕ) : ℤ) := rfl
  have hmin : ((e : ℤ).tmod 3600).tdiv 60 = ((e % 3600 / 60 : ℕ) : ℤ) := rfl
  rw [hhours, hmin]
  split <;> omega

/-- **Idle minutes survive printing and scanning.** Up to 99999:59:59 the text
of an elapsed time fits its member, its minutes are the whole minutes that have
passed, and they reach the reservation time exactly when the seconds do. -/
theorem idle_minutes {e : ℕ} (he : e ≤ 359999999) :
    (renderTime e ++ [0]).length ≤ maxTimeLength ∧
      getMinutes (renderTime e) = some ((e / 60 : ℕ) : ℤ) ∧
      ∀ minutes, getMinutes (renderTime e) = some minutes →
        (reserveTime ≤ minutes ↔ reserveTime * 60 ≤ e) := by
  have hread := getMinutes_renderTime_natCast (e := e) (by omega)
  refine ⟨?_, hread, fun minutes hminutes => ?_⟩
  · rw [List.length_append, List.length_singleton]
    exact renderTime_length_lt he
  · rw [hread] at hminutes
    obtain rfl := Option.some.inj hminutes
    simp only [reserveTime]
    omega

/-- Ten minutes are enough. -/
theorem idle_minutes_reserveTime :
    (renderTime 600 ++ [0]).length ≤ maxTimeLength ∧ getMinutes (renderTime 600) = some 10 ∧
      ∀ minutes, getMinutes (renderTime 600) = some minutes →
        (reserveTime ≤ minutes ↔ reserveTime * 60 ≤ 600) :=
  idle_minutes (show 600 ≤ 359999999 by norm_num)

/-- A client that decodes a listing reads off a held row how long its user has
been idle. -/
theorem getMinutes_listed (config : List Condata) (req : Request) (hostname : List Byte) (now : ℤ)
    (hlen : config.length ≤ maxConnections) (he : ElapsedInRange config now) (junk prior : Reply)
    (stack : Mem) {i : ℕ} (hi : i < (matching config req).length) (hfour : i < maxNConnections)
    (hheld : (matching config req)[i].conpid ≠ badPid) :
    let sent := status junk hostname config req now
    let got := recvfromReply stack (some (sendtoReply sent.1 sent.2)) prior
    getMinutes (got.reply.stat i).contime =
      some ((now - (matching config req)[i].contime) / 60) := by
  obtain ⟨-, -, -, hstat, -⟩ :=
    recvfromReply_status config req hostname now hlen he junk prior stack
  dsimp only
  rw [hstat i hi hfour]
  obtain ⟨h₀, h₁⟩ := he _ (List.mem_of_mem_filter (List.getElem_mem hi)) hheld
  obtain ⟨e, hsec⟩ := Int.eq_ofNat_of_zero_le h₀
  have htime : (rowRecord now (matching config req)[i]).contime = renderTime e := by
    rw [← int32_of_range (n := (e : ℤ)) (by omega) (by omega), ← hsec]
    exact if_neg hheld
  rw [htime, getMinutes_renderTime_natCast (by omega), hsec]
  rfl

end XinuConsole.IdleMinutes
