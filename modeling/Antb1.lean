import Antb1.Exec.ComputeProofs
import Antb1.Exec.DateTruncProofs
import Antb1.Exec.DecimalExactProofs
import Antb1.Exec.DynamicFilterProofs
import Antb1.Exec.HeavyHitters
import Antb1.Exec.JoinTableProofs
import Antb1.Exec.LikeSegmentsProofs
import Antb1.Exec.MemoryBudgetProofs
import Antb1.Exec.ParallelBuildProofs
import Antb1.Exec.PartPruningProofs
import Antb1.Exec.PartSchedulerProofs
import Antb1.Exec.PartTopNProofs
import Antb1.Exec.SetOperationProofs
import Antb1.Plan.CteFramesProofs
import Antb1.Plan.DateTextProofs
import Antb1.Plan.DecimalLiteralProofs
import Antb1.Plan.GroupingSetsProofs
import Antb1.Plan.JoinOrderProofs
import Antb1.Plan.MoveConstantsProofs
import Antb1.Plan.OrFactoringTruth
import Antb1.Plan.SetOperationBinderProofs
import Antb1.Plan.SumRewriteProofs
import Antb1.Plan.UnionBranchesProofs
import Antb1.Sql.SetOperationTreeProofs
