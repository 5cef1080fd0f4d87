import InfluenceDiagrams.Analysis.Moments
import InfluenceDiagrams.Analysis.Risk
import InfluenceDiagrams.Analysis.StateProbabilities
import InfluenceDiagrams.Exact.Search
import InfluenceDiagrams.Model.Assembly
import InfluenceDiagrams.Model.Objective
import InfluenceDiagrams.Model.Solve
import InfluenceDiagrams.Path.Forbidden
import InfluenceDiagrams.Proofs.Analysis.Causality
import InfluenceDiagrams.Proofs.Analysis.Moments
import InfluenceDiagrams.Proofs.Analysis.Pushforward
import InfluenceDiagrams.Proofs.Analysis.Rearrangement
import InfluenceDiagrams.Proofs.Analysis.Translation
import InfluenceDiagrams.Proofs.Analysis.ValueAtRisk
import InfluenceDiagrams.Proofs.Analysis.WorstTail
import InfluenceDiagrams.Proofs.Diagram.WordCount
import InfluenceDiagrams.Proofs.Exact.Answers
import InfluenceDiagrams.Proofs.Model.ActivePaths
import InfluenceDiagrams.Proofs.Model.Extraction
import InfluenceDiagrams.Proofs.Model.Lookups
import InfluenceDiagrams.Proofs.Model.Membership
import InfluenceDiagrams.Proofs.Model.PositiveShift
import InfluenceDiagrams.Proofs.Model.Refusal
import InfluenceDiagrams.Proofs.Model.Relaxation
import InfluenceDiagrams.Proofs.Model.Scaling
import InfluenceDiagrams.Proofs.Model.StrategyBound
import InfluenceDiagrams.Proofs.Model.TailIndicators
import InfluenceDiagrams.Proofs.Path.Listing
import InfluenceDiagrams.Proofs.Path.Partition
import InfluenceDiagrams.Proofs.Strategy.LocalOptimum
import InfluenceDiagrams.Proofs.Strategy.Optimality
import InfluenceDiagrams.Proofs.Strategy.RandomStrategy
import InfluenceDiagrams.Strategy.Improvement
import InfluenceDiagrams.Strategy.Random
