import Tuning.Main
import Tuning.Service.Http
import Tuning.Proofs.Population.Breeding
import Tuning.Proofs.Population.Volume
import Tuning.Proofs.Session.Accounting
import Tuning.Proofs.Individual.Key
import Tuning.Proofs.Population.Ranking
import Tuning.Proofs.Population.Escape
import Tuning.Proofs.Population.Capacity
import Tuning.Proofs.Objective.Sizes
import Tuning.Proofs.Session.Memory
import Tuning.Proofs.Session.Optimum
import Tuning.Proofs.Population.Refusal
import Tuning.Proofs.Session.Traffic
import Tuning.Proofs.Session.Schedule
import Tuning.Proofs.Session.Exhaustion
import Tuning.Proofs.Session.Stored
import Tuning.Proofs.Service.Delivery
import Tuning.Proofs.Service.Lifecycle
import Tuning.Proofs.Service.StreamEnd
import Tuning.Proofs.Population.Mirror
import Tuning.Proofs.Decimal.Brevity
import Tuning.Proofs.Session.Repetition
import Tuning.Proofs.Value.Recoding
import Tuning.Proofs.Json.Depth
import Tuning.Proofs.Store.Joined
import Tuning.Proofs.Store.TraceReading
import Tuning.Proofs.Store.Requests
import Tuning.Proofs.Finite.Listing
import Tuning.Proofs.Finite.Trials
import Tuning.Proofs.Finite.Backtracking
import Tuning.Proofs.Gene.Atoms
import Tuning.Proofs.Gene.Assignment
import Tuning.Proofs.Gene.Wandering
import Tuning.Proofs.Population.Seeds
import Tuning.Proofs.Baseline.Budget
import Tuning.Proofs.Decimal.Arithmetic
import Tuning.Proofs.Population.Wheel
import Tuning.Proofs.Random.Fractions
import Tuning.Proofs.Population.Crossover
import Tuning.Proofs.Store.Retention
import Tuning.Proofs.Space.Request
import Tuning.Proofs.Session.Patience
import Tuning.Proofs.Store.Frames
import Tuning.Proofs.Store.Apart
import Tuning.Finite.Backtracking
